import LedgerGate.Text.Utf8

/-!
# Reading stored texts back

The bytes of a text are the concatenation of the bytes of its characters. From that, both
readers give the text back: the strict one (`decode?_encode`) and the one that marks what is
no character (`pieces_encode`), which then marks nothing. A byte below 0x80 stands for itself
alone, so bytes that separate records do not occur inside other characters.
-/

namespace LedgerGate.Text.Utf8

theorem encode_eq_flatMap (s : String) :
    encode s = s.toList.flatMap String.utf8EncodeChar := by
  have h : s.toByteArray = (s.toList.flatMap String.utf8EncodeChar).toByteArray :=
    String.utf8Encode_toList.symm
  rw [encode, String.toUTF8_eq_toByteArray, h, List.data_toByteArray]

theorem encode_append (s t : String) : encode (s ++ t) = encode s ++ encode t := by
  simp [encode_eq_flatMap]

@[simp]
theorem encode_ofList (cs : List Char) :
    encode (String.ofList cs) = cs.flatMap String.utf8EncodeChar := by
  simp [encode_eq_flatMap]

theorem length_encode (s : String) : (encode s).length = s.utf8ByteSize := by
  simp [encode]

theorem length_encodeChar (c : Char) :
    1 ≤ (String.utf8EncodeChar c).length ∧ (String.utf8EncodeChar c).length ≤ 4 := by
  unfold String.utf8EncodeChar
  simp only
  split
  · simp
  · split
    · simp
    · split <;> simp

/-- A character takes one to four bytes. -/
theorem length_encode_bounds (s : String) :
    s.toList.length ≤ (encode s).length ∧ (encode s).length ≤ 4 * s.toList.length := by
  rw [encode_eq_flatMap]
  induction s.toList with
  | nil => simp
  | cons c r ih =>
    have := length_encodeChar c
    simp only [List.flatMap_cons, List.length_append, List.length_cons]
    omega

theorem decode?_encode (s : String) : decode? (encode s) = some s := by
  have h : (⟨(encode s).toArray⟩ : ByteArray) = s.toByteArray := by
    simp [encode]
  rw [decode?, h, String.fromUTF8?, dif_pos s.isValidUTF8]
  rfl

theorem encode_injective {s t : String} (h : encode s = encode t) : s = t := by
  have hs := decode?_encode s
  rw [h, decode?_encode] at hs
  exact (Option.some.inj hs).symm

/-! ## One character -/

/-- The code points of characters have a gap at the surrogates. -/
theorem val_bounds (c : Char) :
    c.val.toNat < 0xd800 ∨ (0xdfff < c.val.toNat ∧ c.val.toNat < 0x110000) := c.valid

theorem ofNat_val (c : Char) : Char.ofNat c.val.toNat = c := Char.ofNat_toNat c

theorem next_last {p : Partial} {b : Nat} (done : List (Option Char))
    (hb : p.least ≤ b ∧ b ≤ p.most) (hp : p.missing = 1) :
    next b (some p, done) = (none, some (Char.ofNat (p.bits * 64 + (b - 0x80))) :: done) := by
  simp [next, hb, hp]

theorem next_more {p : Partial} {b : Nat} (done : List (Option Char))
    (hb : p.least ≤ b ∧ b ≤ p.most) (hp : p.missing ≠ 1) :
    next b (some p, done) =
      (some ⟨p.missing - 1, 0x80, 0xbf, p.bits * 64 + (b - 0x80)⟩, done) := by
  simp [next, hb, hp]

theorem next_lead {p : Partial} {b : Nat} (done : List (Option Char)) (h : lead b = .part p) :
    next b (none, done) = (some p, done) := by
  simp [next, start, h]

theorem lead_two {n : Nat} (h : 0x80 ≤ n) (h' : n ≤ 0x7ff) :
    lead (n / 64 + 0xc0) = .part ⟨1, 0x80, 0xbf, n / 64⟩ := by
  unfold lead
  rw [if_neg (by omega), if_pos (by omega), Nat.add_sub_cancel]

/-- The second byte of three is kept from overlong forms and from surrogates. -/
theorem lead_three {n : Nat} (h : 0x7ff < n) (h' : n ≤ 0xffff)
    (hn : n < 0xd800 ∨ 0xdfff < n) : ∃ least most,
      lead (n / 4096 + 0xe0) = .part ⟨2, least, most, n / 4096⟩ ∧
        least ≤ n / 64 % 64 + 0x80 ∧ n / 64 % 64 + 0x80 ≤ most := by
  unfold lead
  rw [if_neg (by omega), if_neg (by omega)]
  split
  · exact ⟨0xa0, 0xbf, by rw [show n / 4096 = 0 by omega], by omega, by omega⟩
  · split
    · exact ⟨0x80, 0x9f, by rw [show n / 4096 = 13 by omega], by omega, by omega⟩
    · rw [if_pos (by omega), Nat.add_sub_cancel]
      exact ⟨0x80, 0xbf, rfl, by omega, by omega⟩

/-- The second byte of four is kept from overlong forms and from what is past the last
code point. -/
theorem lead_four {n : Nat} (h : 0xffff < n) (h' : n < 0x110000) : ∃ least most,
      lead (n / 262144 + 0xf0) = .part ⟨3, least, most, n / 262144⟩ ∧
        least ≤ n / 4096 % 64 + 0x80 ∧ n / 4096 % 64 + 0x80 ≤ most := by
  unfold lead
  rw [if_neg (by omega), if_neg (by omega), if_neg (by omega), if_neg (by omega),
    if_neg (by omega)]
  split
  · exact ⟨0x90, 0xbf, by rw [show n / 262144 = 0 by omega], by omega, by omega⟩
  · split
    · rw [Nat.add_sub_cancel]
      exact ⟨0x80, 0xbf, rfl, by omega, by omega⟩
    · rw [if_pos (by omega)]
      exact ⟨0x80, 0x8f, by rw [show n / 262144 = 4 by omega], by omega, by omega⟩

/-- The bytes of a character, read one after the other, give that character. -/
theorem foldl_next_encodeChar (c : Char) (done : List (Option Char)) :
    (String.utf8EncodeChar c).foldl (fun s b => next b.toNat s) (none, done) =
      (none, some c :: done) := by
  have hc := ofNat_val c
  have hb := val_bounds c
  unfold String.utf8EncodeChar
  generalize c.val.toNat = n at hc hb
  simp only
  split
  · next h =>
    simp [next, start, lead, hc, show n % 256 = n by omega, show n < 128 by omega]
  · split
    · next h1 h2 =>
      have h0 : (n / 64 % 32 + 0xc0) % 256 = n / 64 + 0xc0 := by omega
      have hm : (n % 64 + 0x80) % 256 = n % 64 + 0x80 := by omega
      simp only [List.foldl_cons, List.foldl_nil, UInt8.toNat_ofNat', Nat.reducePow, h0, hm]
      rw [next_lead done (lead_two (by omega) h2), next_last done ⟨by simp, by simp; omega⟩ rfl,
        show n / 64 * 64 + (n % 64 + 0x80 - 0x80) = n by omega, hc]
    · split
      · next h1 h2 h3 =>
        obtain ⟨least, most, hl, hlo, hhi⟩ := lead_three (n := n) (by omega) h3 (by omega)
        have h0 : (n / 4096 % 16 + 0xe0) % 256 = n / 4096 + 0xe0 := by omega
        have hm : (n / 64 % 64 + 0x80) % 256 = n / 64 % 64 + 0x80 := by omega
        have hm' : (n % 64 + 0x80) % 256 = n % 64 + 0x80 := by omega
        simp only [List.foldl_cons, List.foldl_nil, UInt8.toNat_ofNat', Nat.reducePow, h0, hm, hm']
        rw [next_lead done hl, next_more done ⟨hlo, hhi⟩ (by simp),
          next_last done ⟨by simp, by simp; omega⟩ rfl,
          show (n / 4096 * 64 + (n / 64 % 64 + 0x80 - 0x80)) * 64 + (n % 64 + 0x80 - 0x80) = n by
            omega, hc]
      · next h1 h2 h3 =>
        obtain ⟨least, most, hl, hlo, hhi⟩ := lead_four (n := n) (by omega) (by omega)
        have h0 : (n / 262144 % 8 + 0xf0) % 256 = n / 262144 + 0xf0 := by omega
        have hm : (n / 4096 % 64 + 0x80) % 256 = n / 4096 % 64 + 0x80 := by omega
        have hm' : (n / 64 % 64 + 0x80) % 256 = n / 64 % 64 + 0x80 := by omega
        have hm'' : (n % 64 + 0x80) % 256 = n % 64 + 0x80 := by omega
        simp only [List.foldl_cons, List.foldl_nil, UInt8.toNat_ofNat', Nat.reducePow, h0, hm, hm',
          hm'']
        rw [next_lead done hl, next_more done ⟨hlo, hhi⟩ (by simp),
          next_more done ⟨by simp, by simp; omega⟩ (by simp),
          next_last done ⟨by simp, by simp; omega⟩ rfl,
          show ((n / 262144 * 64 + (n / 4096 % 64 + 0x80 - 0x80)) * 64 +
            (n / 64 % 64 + 0x80 - 0x80)) * 64 + (n % 64 + 0x80 - 0x80) = n by omega, hc]

/-! ## Whole texts -/

theorem foldl_next_flatMap (cs : List Char) (done : List (Option Char)) :
    (cs.flatMap String.utf8EncodeChar).foldl (fun s b => next b.toNat s) (none, done) =
      (none, (cs.map some).reverse ++ done) := by
  induction cs generalizing done with
  | nil => rfl
  | cons c r ih =>
    rw [List.flatMap_cons, List.foldl_append, foldl_next_encodeChar, ih]
    simp

theorem pieces_encode (s : String) : pieces (encode s) = s.toList.map some := by
  simp only [pieces, encode_eq_flatMap, foldl_next_flatMap]
  simp

/-- A byte below 0x80 is in the encoding of the one character of that number only. -/
theorem mem_encodeChar {b : UInt8} {c : Char} (hb : b.toNat < 0x80)
    (h : b ∈ String.utf8EncodeChar c) : c.toNat = b.toNat := by
  have hc := val_bounds c
  change c.val.toNat = b.toNat
  unfold String.utf8EncodeChar at h
  generalize c.val.toNat = n at hc h
  simp only at h
  split at h
  · obtain rfl := List.mem_singleton.mp h
    simp only [UInt8.toNat_ofNat', Nat.reducePow]
    omega
  · exfalso
    split at h
    · simp only [List.mem_cons, List.not_mem_nil, or_false] at h
      rcases h with rfl | rfl <;> simp only [UInt8.toNat_ofNat', Nat.reducePow] at hb <;> omega
    · split at h
      · simp only [List.mem_cons, List.not_mem_nil, or_false] at h
        rcases h with rfl | rfl | rfl <;>
          simp only [UInt8.toNat_ofNat', Nat.reducePow] at hb <;> omega
      · simp only [List.mem_cons, List.not_mem_nil, or_false] at h
        rcases h with rfl | rfl | rfl | rfl <;>
          simp only [UInt8.toNat_ofNat', Nat.reducePow] at hb <;> omega

theorem exists_of_mem_encode {b : UInt8} {s : String} (hb : b.toNat < 0x80)
    (h : b ∈ encode s) : ∃ c ∈ s.toList, c.toNat = b.toNat := by
  rw [encode_eq_flatMap, List.mem_flatMap] at h
  obtain ⟨c, hc, h⟩ := h
  exact ⟨c, hc, mem_encodeChar hb h⟩

end LedgerGate.Text.Utf8

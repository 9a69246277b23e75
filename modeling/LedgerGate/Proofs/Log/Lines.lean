import LedgerGate.Proofs.Json.RoundTrip
import LedgerGate.Proofs.Log.Chunks

/-!
# Reading a log back

What was appended to a log is a line for each entry and, after an interruption, the beginning
of one more. Replay gives these entries in order and cuts off at that beginning
(`replay_lines`).
-/

namespace LedgerGate

/-! ## No control character in written values -/

namespace Json

/-- Whether no character is a control character. -/
def Printable (cs : List Char) : Prop := ∀ c ∈ cs, 0x20 ≤ c.toNat

theorem Printable.nil : Printable [] := fun _ hc => absurd hc List.not_mem_nil

theorem Printable.append {cs ds : List Char} (h : Printable cs) (h' : Printable ds) :
    Printable (cs ++ ds) := fun c hc => (List.mem_append.mp hc).elim (h c) (h' c)

theorem Printable.cons {c : Char} {cs : List Char} (hc : 0x20 ≤ c.toNat) (h : Printable cs) :
    Printable (c :: cs) := List.forall_mem_cons.mpr ⟨hc, h⟩

theorem printable_digit : ∀ n < 16, 0x20 ≤ (Text.Hex.digit n).toNat := by decide

theorem printable_escapedChar (c : Char) : Printable (escapedChar c) := by
  have hshort : ∀ d : Char, 0x20 ≤ d.toNat → Printable ['\\', d] := fun d hd =>
    .cons (by decide) (.cons hd .nil)
  unfold escapedChar
  split
  case h_8 =>
    split
    · have hd : ∀ n : Nat, 0x20 ≤ (Text.Hex.digit (n % 16)).toNat :=
        fun n => printable_digit _ (Nat.mod_lt _ (by decide))
      simp [Printable, Text.Hex.fourDigits, hd]
    · next h => simpa [Printable] using h
  all_goals exact hshort _ (by decide)

theorem printable_stringChars (s : String) : Printable (stringChars s) := by
  refine Printable.append (.cons (by decide) fun c hc => ?_) (.cons (by decide) .nil)
  obtain ⟨d, -, hd⟩ := List.mem_flatMap.mp hc
  exact printable_escapedChar d c hd

theorem printable_digits {n : Int} : Printable (toString n).toList := by
  intro c hc
  rcases mem_toString hc with rfl | h
  · decide
  · simp [Char.isDigit, UInt32.le_iff_toNat_le] at h
    exact Nat.le_trans (by decide) h.1

theorem printable_joined : ∀ {parts : List (List Char)}, (∀ cs ∈ parts, Printable cs) →
    Printable (joined [','] parts)
  | [], _ => .nil
  | [cs], h => h cs (by simp)
  | cs :: ds :: r, h =>
    ((h cs (by simp)).append (.cons (by decide) .nil)).append
      (printable_joined fun es hes => h es (by simp [hes]))

mutual

theorem printable_chars : ∀ v : Json, IsPlain v → Printable v.chars
  | array items, h =>
    .cons (by decide) (.append (printable_joined (printable_itemChars items h))
      (.cons (by decide) .nil))
  | object fields, h =>
    .cons (by decide) (.append (printable_joined (printable_fieldChars fields h))
      (.cons (by decide) .nil))
  | null, _ => by simp [Printable, chars, leafChars]
  | bool b, _ => by cases b <;> simp [Printable, chars, leafChars]
  | integer _, _ => printable_digits
  | string s, _ => printable_stringChars s

theorem printable_itemChars : ∀ items : List Json, ItemsPlain items →
    ∀ cs ∈ itemChars items, Printable cs
  | [], _ => nofun
  | v :: r, h => List.forall_mem_cons.mpr ⟨printable_chars v h.1, printable_itemChars r h.2⟩

theorem printable_fieldChars : ∀ fields : List (String × Json), FieldsPlain fields →
    ∀ cs ∈ fieldChars fields, Printable cs
  | [], _ => nofun
  | (k, v) :: r, h => List.forall_mem_cons.mpr
    ⟨(printable_stringChars k).append (.cons (by decide) (printable_chars v h.1)),
      printable_fieldChars r h.2⟩

end

end Json

namespace Json

theorem length_escapedChar_le (c : Char) : (escapedChar c).length ≤ 6 := by
  unfold escapedChar
  split <;> try decide
  split
  · simp [Text.Hex.fourDigits]
  · simp

theorem length_stringChars_le (s : String) :
    (stringChars s).length ≤ 6 * s.toList.length + 2 := by
  have h : ∀ cs : List Char, (cs.flatMap escapedChar).length ≤ 6 * cs.length := by
    intro cs
    induction cs with
    | nil => simp
    | cons c r ih =>
      have := length_escapedChar_le c
      simp only [List.flatMap_cons, List.length_append, List.length_cons]
      omega
  have := h s.toList
  simp only [stringChars, List.length_append, List.length_cons, List.length_nil]
  omega

end Json

/-! ## Digests as text -/

namespace Sha256

theorem length_digest (message : List UInt8) : (digest message).length = 32 := by
  simp [digest, State.bytes, bigEndian]

end Sha256

namespace Text.Hex

theorem length_encode (bytes : List UInt8) : (encode bytes).length = 2 * bytes.length := by
  induction bytes with
  | nil => rfl
  | cons b r ih => simp only [encode, List.length_cons, ih]; omega

theorem printable_encode (bytes : List UInt8) : Json.Printable (encode bytes) := by
  induction bytes with
  | nil => exact .nil
  | cons b r ih =>
    have hb := b.toNat_lt
    exact .cons (Json.printable_digit _ (by omega)) (.cons (Json.printable_digit _ (by omega)) ih)

end Text.Hex

namespace Sha256

theorem toList_textDigest (s : String) :
    (textDigest s).toList = Text.Hex.encode (digest (Text.Utf8.encode s)) := by
  rw [textDigest, hexDigest, String.toList_ofList]

theorem length_textDigest (s : String) : (textDigest s).toList.length = 64 := by
  rw [toList_textDigest, Text.Hex.length_encode, length_digest]

end Sha256

/-! ## The line of an entry -/

namespace Log

theorem Op.ofName?_name (op : Op) : Op.ofName? op.name = some op := by
  cases op <;> decide

namespace Entry

/-- The line of an entry without its line feed. -/
def body (e : Entry) : String := Sha256.textDigest e.text ++ "\t" ++ e.text

/-- Whether an entry has an identifier and no text of it is long. -/
structure IsSound (e : Entry) : Prop where
  tx_ne : e.tx ≠ ""
  tx_short : e.tx.utf8ByteSize ≤ 128
  payloadHash_short : e.payloadHash.utf8ByteSize ≤ 256

/-- Whether an entry has an identifier and its line is not too long to be read back. -/
structure Fits (e : Entry) : Prop where
  tx_ne : e.tx ≠ ""
  length_le : e.bytes.length ≤ maxLine + 1

/-- Another step of the same transaction is sound as well. -/
theorem IsSound.ending {e : Entry} (h : e.IsSound) (op : Op) (time : UInt64) :
    (e.ending op time).IsSound := ⟨h.tx_ne, h.tx_short, h.payloadHash_short⟩

theorem isPlain_toJson (e : Entry) : e.toJson.IsPlain :=
  ⟨trivial, trivial, trivial, ⟨by omega, Int.ofNat_le.mpr (Nat.le_of_lt_succ e.timestamp.toNat_lt)⟩,
    trivial⟩

theorem printable_text (e : Entry) : Json.Printable e.text.toList := by
  rw [text, Json.text, String.toList_ofList]
  exact Json.printable_chars _ e.isPlain_toJson

theorem bytes_eq (e : Entry) : e.bytes = Text.Utf8.encode e.body ++ [10] := by
  rw [bytes, line, framed, Text.Utf8.encode_append]
  rfl

theorem newline_notMem_body (e : Entry) : 10 ∉ Text.Utf8.encode e.body := by
  intro h
  obtain ⟨c, hc, hval⟩ := Text.Utf8.exists_of_mem_encode (by decide) h
  rw [body, String.toList_append, String.toList_append, List.mem_append, List.mem_append,
    Sha256.toList_textDigest] at hc
  change c.toNat = 10 at hval
  rcases hc with (hc | hc) | hc
  · have := Text.Hex.printable_encode _ c hc
    omega
  · obtain rfl := List.mem_singleton.mp hc
    exact absurd hval (by decide)
  · have := e.printable_text c hc
    omega

theorem ofJson?_toJson (e : Entry) : ofJson? e.toJson = some e := by
  have hparts : e.toJson.parts? ["op", "tx_id", "payload_hash", "timestamp"] =
      some [some (.string e.op.name), some (.string e.tx), some (.string e.payloadHash),
        some (.integer e.timestamp.toNat)] := by
    simp [toJson, Json.parts?, Json.traverse, Json.allNamed]
  have hstamp : (Json.integer e.timestamp.toNat).nat? Json.maxUInt64 = some e.timestamp.toNat := by
    rw [Json.nat?, if_pos ⟨by omega, Int.ofNat_le.mpr (Nat.le_of_lt_succ e.timestamp.toNat_lt)⟩,
      Int.toNat_natCast]
  simp [ofJson?, hparts, Json.bareChoice?, Json.choice?, Json.string?, hstamp, Op.ofName?_name]

theorem depth_toJson (e : Entry) : e.toJson.depth ≤ Json.maxDepth := by
  simp [toJson, Json.depth, Json.fieldsDepth, Json.maxDepth]

theorem decodeText_text {e : Entry} (h : e.tx ≠ "") : decodeText e.text.toList = .ok e := by
  rw [decodeText, text, Json.text, String.toList_ofList,
    Json.read?_chars e.isPlain_toJson e.depth_toJson, Option.bind_some, ofJson?_toJson]
  exact if_neg h

theorem decodeLine_body {e : Entry} (h : e.tx ≠ "") : decodeLine e.body = .ok e := by
  have hbody : e.body.toList = (Sha256.textDigest e.text).toList ++ '\t' :: e.text.toList := by
    simp [body]
  have htab : ∀ c ∈ (Sha256.textDigest e.text).toList, decide (c ≠ '\t') = true := by
    intro c hc
    rw [Sha256.toList_textDigest] at hc
    have := Text.Hex.printable_encode _ c hc
    refine decide_eq_true ?_
    rintro rfl
    exact absurd this (by decide)
  simp only [decodeLine, hbody, List.takeWhile_append_of_pos htab,
    List.dropWhile_append_of_pos htab]
  simp [decodeText_text h]

theorem length_text_le (e : Entry) :
    e.text.toList.length ≤ 6 * e.tx.toList.length + 6 * e.payloadHash.toList.length + 120 := by
  have hop : (Json.stringChars e.op.name).length ≤ 10 := by cases e.op <;> decide
  have ht := Json.length_stringChars_le e.tx
  have hp := Json.length_stringChars_le e.payloadHash
  have hn : (toString (e.timestamp.toNat : Int)).toList.length ≤ 20 := by
    rw [Json.toList_toString, if_neg (by omega)]
    exact (Nat.length_toDigits_le_iff (by decide) (by decide)).mpr
      (Nat.lt_trans e.timestamp.toNat_lt (by decide))
  have h1 : (Json.stringChars "op").length = 4 := by decide
  have h2 : (Json.stringChars "tx_id").length = 7 := by decide
  have h3 : (Json.stringChars "payload_hash").length = 14 := by decide
  have h4 : (Json.stringChars "timestamp").length = 11 := by decide
  rw [text, Json.text, String.toList_ofList]
  simp only [toJson, Json.chars, Json.fieldChars, Json.joined, Json.leafChars, List.length_append,
    List.length_cons, List.length_nil, h1, h2, h3, h4]
  omega

/-- The line of a sound entry is short, whatever its texts consist of. -/
theorem IsSound.length_body_le {e : Entry} (h : e.IsSound) :
    (Text.Utf8.encode e.body).length ≤ maxLine := by
  have ht := (Text.Utf8.length_encode_bounds e.tx).1
  have hp := (Text.Utf8.length_encode_bounds e.payloadHash).1
  have hb := (Text.Utf8.length_encode_bounds e.body).2
  have htext := e.length_text_le
  have htx := h.tx_short
  have hph := h.payloadHash_short
  rw [Text.Utf8.length_encode] at ht hp
  have hlen : e.body.toList.length = 64 + 1 + e.text.toList.length := by
    rw [body, String.toList_append, String.toList_append, List.length_append, List.length_append,
      Sha256.length_textDigest]
    rfl
  unfold maxLine
  omega

theorem length_bytes (e : Entry) : e.bytes.length = (Text.Utf8.encode e.body).length + 1 := by
  rw [e.bytes_eq, List.length_append, List.length_singleton]

theorem IsSound.fits {e : Entry} (h : e.IsSound) : e.Fits :=
  ⟨h.tx_ne, e.length_bytes.trans_le (Nat.succ_le_succ h.length_body_le)⟩

theorem Fits.length_body_le {e : Entry} (h : e.Fits) :
    (Text.Utf8.encode e.body).length ≤ maxLine :=
  Nat.le_of_succ_le_succ (e.length_bytes.symm.trans_le h.length_le)

theorem holdsEntry_body {e : Entry} (h : e.Fits) :
    HoldsEntry (Text.Utf8.encode e.body) e.body e where
  length_le := h.length_body_le
  decode := Text.Utf8.decode?_encode _
  accept := decodeLine_body h.tx_ne

end Entry

/-! ## The lines of a log -/

/-- The bytes of entries, one line each. -/
def lines (es : List Entry) : List UInt8 := es.flatMap Entry.bytes

@[simp]
theorem lines_nil : lines [] = [] := rfl

@[simp]
theorem lines_cons (e : Entry) (es : List Entry) : lines (e :: es) = e.bytes ++ lines es := rfl

@[simp]
theorem lines_append (es fs : List Entry) : lines (es ++ fs) = lines es ++ lines fs :=
  List.flatMap_append

theorem fits_of_sound {es : List Entry} (h : ∀ e ∈ es, e.IsSound) : ∀ e ∈ es, e.Fits :=
  fun e he => (h e he).fits

/-- Whether bytes can be what is left of a line that was not finished. -/
def IsTorn (tail : List UInt8) : Prop := 10 ∉ tail ∧ tail.length ≤ maxLine

theorem isTorn_nil : IsTorn [] := ⟨List.not_mem_nil, Nat.zero_le _⟩

theorem lines_eq_closed (es : List Entry) :
    lines es = closed (es.map fun e => Text.Utf8.encode e.body) := by
  rw [lines, closed, List.flatMap_map]
  exact congrArg (fun f => es.flatMap f) (funext Entry.bytes_eq)

/-- Entries and what is left of a line are split into the lines of the entries and that rest. -/
theorem isSplit_lines (es : List Entry) {tail : List UInt8} (h : 10 ∉ tail) :
    IsSplit (lines es ++ tail) (es.map fun e => Text.Utf8.encode e.body) tail where
  eq_append := by rw [lines_eq_closed]
  notMem_lines := List.forall_mem_map.mpr fun e _ => e.newline_notMem_body
  notMem_rest := h

/-- The records of entries, the first of which stands at an offset. -/
def recordsFrom (offset : Nat) : List Entry → List Record
  | [] => []
  | e :: r => ⟨offset, e.body, e⟩ :: recordsFrom (offset + e.bytes.length) r

theorem map_entry_recordsFrom (es : List Entry) (offset : Nat) :
    (recordsFrom offset es).map Record.entry = es := by
  induction es generalizing offset with
  | nil => rfl
  | cons e r ih => simp [recordsFrom, ih]

theorem recorded_recordsFrom {es : List Entry} (h : ∀ e ∈ es, e.Fits) (offset : Nat) :
    Recorded offset (es.map fun e => Text.Utf8.encode e.body) (recordsFrom offset es) := by
  induction es generalizing offset with
  | nil => exact .nil offset
  | cons e r ih =>
    have hnext : offset + (Text.Utf8.encode e.body).length + 1 = offset + e.bytes.length := by
      rw [e.length_bytes, Nat.add_assoc]
    obtain ⟨he, hr⟩ := List.forall_mem_cons.mp h
    exact .cons (Entry.holdsEntry_body he) (hnext ▸ ih hr _)

/-- Entries that were appended are read back in order, and a torn line is cut off where it
begins. -/
theorem replay_lines {es : List Entry} (h : ∀ e ∈ es, e.Fits) {tail : List UInt8}
    (ht : IsTorn tail) :
    replay (lines es ++ tail) =
      .ok ⟨recordsFrom 0 es, if tail = [] then none else some (lines es).length⟩ := by
  have hsplit := isSplit_lines es ht.1
  rw [replay, hsplit.eq_append, replayFrom_closed (recorded_recordsFrom h 0) hsplit.notMem_lines,
    replayFrom_rest ht.1 ht.2, ← lines_eq_closed, Nat.zero_add, List.append_nil,
    List.reverse_reverse]

/-- The entry of a complete line, if it holds one. -/
def entryOfLine? (line : List UInt8) : Option Entry :=
  (Text.Utf8.decode? line).bind fun raw => (decodeLine raw).toOption

/-- The entries of the complete lines of a log. -/
def entriesIn (bytes : List UInt8) : List Entry := (splitLines bytes).1.filterMap entryOfLine?

theorem entryOfLine?_body {e : Entry} (h : e.Fits) :
    entryOfLine? (Text.Utf8.encode e.body) = some e := by
  simp [entryOfLine?, Text.Utf8.decode?_encode, Entry.decodeLine_body h.tx_ne, Except.toOption]

theorem entriesIn_lines {es : List Entry} (h : ∀ e ∈ es, e.Fits) {tail : List UInt8}
    (ht : 10 ∉ tail) : entriesIn (lines es ++ tail) = es := by
  rw [entriesIn, (isSplit_lines es ht).splitLines_eq]
  induction es with
  | nil => rfl
  | cons e r ih =>
    rw [List.map_cons, List.filterMap_cons_some (entryOfLine?_body (h e (by simp))),
      ih fun f hf => h f (by simp [hf])]

/-- The beginning of a line is the whole line or torn. -/
theorem take_bytes {e : Entry} (h : e.Fits) (k : Nat) :
    e.bytes.take k = e.bytes ∨ IsTorn (e.bytes.take k) := by
  rw [e.bytes_eq]
  by_cases hk : k ≤ (Text.Utf8.encode e.body).length
  · rw [List.take_append_of_le_length hk]
    refine .inr ⟨fun hmem => e.newline_notMem_body (List.mem_of_mem_take hmem), ?_⟩
    rw [List.length_take]
    exact (Nat.min_le_right _ _).trans h.length_body_le
  · exact .inl (List.take_of_length_le (by simp; omega))

/-- Where the line of a record ends. -/
def Record.stop (r : Record) : Nat := r.offset + r.entry.bytes.length

/-- The records whose whole lines are among the first bytes. -/
def wholeWithin (n : Nat) (records : List Record) : List Record :=
  records.filter fun r => r.stop ≤ n

/-- The record whose line is cut in two behind the first bytes, if there is one. -/
def cutAt? (n : Nat) (records : List Record) : Option Record :=
  records.find? fun r => r.offset < n && n < r.stop

theorem le_of_mem_recordsFrom {es : List Entry} {offset : Nat} {r : Record}
    (h : r ∈ recordsFrom offset es) : offset ≤ r.offset := by
  induction es generalizing offset with
  | nil => exact absurd h List.not_mem_nil
  | cons e rest ih =>
    rcases List.mem_cons.mp h with rfl | h
    · exact Nat.le_refl _
    · exact Nat.le_of_add_right_le (ih h)

theorem isTorn_take {e : Entry} {n : Nat} (he : e.Fits) (hn : n < e.bytes.length) :
    IsTorn (e.bytes.take n) := by
  refine (take_bytes he n).resolve_left fun heq => ?_
  have hlength := congrArg List.length heq
  rw [List.length_take] at hlength
  omega

/-- When the first line is cut already, none of the lines is whole. -/
theorem wholeWithin_of_cut {e : Entry} {r : List Entry} {n : Nat} (offset : Nat)
    (hn : n < e.bytes.length) : wholeWithin (offset + n) (recordsFrom offset (e :: r)) = [] := by
  have hstop : Record.stop ⟨offset, e.body, e⟩ = offset + e.bytes.length := rfl
  simp only [wholeWithin, recordsFrom]
  rw [List.filter_cons_of_neg (by simp [hstop]; omega)]
  refine List.filter_eq_nil_iff.mpr fun f hf => ?_
  have hafter := le_of_mem_recordsFrom hf
  rw [decide_eq_true_eq, Record.stop]
  omega

theorem cutAt?_of_cut {e : Entry} {r : List Entry} {n : Nat} (offset : Nat)
    (hn : n < e.bytes.length) :
    (cutAt? (offset + n) (recordsFrom offset (e :: r))).map Record.offset =
      if e.bytes.take n = [] then none else some offset := by
  have hstop : Record.stop ⟨offset, e.body, e⟩ = offset + e.bytes.length := rfl
  have hempty : e.bytes.take n = [] ↔ n = 0 := by
    rw [List.take_eq_nil_iff, e.bytes_eq]
    simp
  rw [cutAt?]
  by_cases h0 : n = 0
  · rw [if_pos (hempty.mpr h0), Option.map_eq_none_iff, List.find?_eq_none]
    intro f hf
    have hle := le_of_mem_recordsFrom hf
    simp only [Bool.and_eq_true, decide_eq_true_eq]
    omega
  · rw [if_neg (mt hempty.mp h0), recordsFrom, List.find?_cons_of_pos (by simp [hstop]; omega)]
    simp

/-- The beginning of lines is the lines that are whole in it, and then the beginning of the line
that is cut, if one is. -/
theorem exists_take_lines {es : List Entry} (h : ∀ e ∈ es, e.Fits) (n offset : Nat) :
    ∃ done rest tail, es = done ++ rest ∧ (lines es).take n = lines done ++ tail ∧ IsTorn tail ∧
      wholeWithin (offset + n) (recordsFrom offset es) = recordsFrom offset done ∧
      (cutAt? (offset + n) (recordsFrom offset es)).map Record.offset =
        if tail = [] then none else some (offset + (lines done).length) := by
  induction es generalizing n offset with
  | nil => exact ⟨[], [], [], rfl, by simp, isTorn_nil, rfl, rfl⟩
  | cons e r ih =>
    have hstop : Record.stop ⟨offset, e.body, e⟩ = offset + e.bytes.length := rfl
    by_cases hn : e.bytes.length ≤ n
    · obtain ⟨done, rest, tail, rfl, htake, ht, hwhole, hcut⟩ :=
        ih (fun f hf => h f (by simp [hf])) (n - e.bytes.length) (offset + e.bytes.length)
      rw [show offset + e.bytes.length + (n - e.bytes.length) = offset + n by omega] at hwhole hcut
      refine ⟨e :: done, rest, tail, rfl, ?_, ht, ?_, ?_⟩
      · rw [lines_cons, List.take_append, htake, List.take_of_length_le hn]
        simp
      · rw [wholeWithin, recordsFrom, List.filter_cons_of_pos (by simp [hstop, hn])]
        exact congrArg _ hwhole
      · rw [cutAt?, recordsFrom, List.find?_cons_of_neg (by simp [hstop]; omega), lines_cons,
          List.length_append, ← Nat.add_assoc]
        exact hcut
    · have hcut : n < e.bytes.length := Nat.lt_of_not_le hn
      have htake : (lines (e :: r)).take n = e.bytes.take n := by
        rw [lines_cons, List.take_append_of_le_length (Nat.le_of_lt hcut)]
      exact ⟨[], e :: r, e.bytes.take n, rfl, htake, isTorn_take (h e (by simp)) hcut,
        wholeWithin_of_cut offset hcut, cutAt?_of_cut offset hcut⟩

/-- The beginning of lines is some of the lines and then a torn one. -/
theorem take_lines {es : List Entry} (h : ∀ e ∈ es, e.Fits) (k : Nat) :
    ∃ done rest tail, es = done ++ rest ∧ (lines es).take k = lines done ++ tail ∧ IsTorn tail := by
  obtain ⟨done, rest, tail, hes, htake, ht, -⟩ := exists_take_lines h k 0
  exact ⟨done, rest, tail, hes, htake, ht⟩

end Log

end LedgerGate

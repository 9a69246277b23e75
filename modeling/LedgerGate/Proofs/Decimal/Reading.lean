import LedgerGate.Proofs.Decimal.Text
import Mathlib.Data.Nat.Digits.Lemmas

/-!
# Which text is a decimal

The text of a number has a sign or none, digits before the point and digits after it
(`Decimal.Numeral`). It is read exactly if it is not minus zero and has no more digits than the
precision allows, and then the digits give the mantissa and the places give the scale
(`Decimal.parse_exact`). What is read prints back to the same text, and every decimal with few
enough digits is read from its own text.
-/

namespace LedgerGate.Decimal

/-! ## The number that digits spell -/

theorem digit_bounds {c : Char} (h : c.isDigit = true) : 48 ≤ c.toNat ∧ c.toNat ≤ 57 := by
  simpa [Char.isDigit, UInt32.le_iff_toNat_le] using h

theorem valueOf_cons (c : Char) (r : List Char) :
    valueOf (c :: r) = (c.toNat - 48) * tenTo r.length + valueOf r := by
  have hten : (10 : Nat) ^ r.length = tenTo r.length := rfl
  rw [valueOf, Nat.ofDigitChars_cons, Nat.ofDigitChars_eq_ofDigitChars_zero, hten, Nat.mul_comm,
    Nat.mul_zero, Nat.zero_add]
  rfl

theorem allDigits_cons {c : Char} {r : List Char} :
    allDigits (c :: r) = true ↔ c.isDigit = true ∧ allDigits r = true := by
  simp [allDigits]

theorem allDigits_append {xs ys : List Char} :
    allDigits (xs ++ ys) = true ↔ allDigits xs = true ∧ allDigits ys = true := by
  simp [allDigits]

theorem valueOf_lt {ds : List Char} (h : allDigits ds = true) : valueOf ds < tenTo ds.length := by
  induction ds with
  | nil => decide
  | cons c r ih =>
    obtain ⟨hc, hr⟩ := allDigits_cons.mp h
    have hdigit : c.toNat - 48 ≤ 9 := by
      have := digit_bounds hc
      omega
    have hhead := Nat.mul_le_mul_right (tenTo r.length) hdigit
    have hrest := ih hr
    rw [valueOf_cons, List.length_cons, tenTo_succ]
    omega

/-- A digit in front that is not zero makes the number as large as its digits are many. -/
theorem le_valueOf_cons {c : Char} (hc : c.isDigit = true) (h0 : c ≠ '0') (r : List Char) :
    tenTo r.length ≤ valueOf (c :: r) := by
  have hne : c.toNat ≠ 48 := fun h => h0 (Char.toNat_inj.mp h)
  have hdigit : 1 ≤ c.toNat - 48 := by
    have := digit_bounds hc
    omega
  have hhead := Nat.mul_le_mul_right (tenTo r.length) hdigit
  rw [valueOf_cons]
  omega

/-- Digits are determined by their number and by the number that they spell. -/
theorem valueOf_injective {xs ys : List Char} (hx : allDigits xs = true) (hy : allDigits ys = true)
    (hlength : xs.length = ys.length) (h : valueOf xs = valueOf ys) : xs = ys := by
  induction xs generalizing ys with
  | nil => exact (List.eq_nil_of_length_eq_zero hlength.symm).symm
  | cons c r ih =>
    obtain ⟨d, s, rfl⟩ := List.exists_cons_of_length_eq_add_one hlength.symm
    obtain ⟨hc, hr⟩ := allDigits_cons.mp hx
    obtain ⟨hd, hs⟩ := allDigits_cons.mp hy
    have hrest : r.length = s.length := Nat.succ.inj hlength
    have hltr := valueOf_lt hr
    have hlts := valueOf_lt hs
    rw [valueOf_cons, valueOf_cons, hrest] at h
    rw [hrest] at hltr
    -- A greater digit in front cannot be made up for by the digits behind it.
    have hdigit : c.toNat - 48 = d.toNat - 48 := by
      rcases Nat.lt_trichotomy (c.toNat - 48) (d.toNat - 48) with hlt | heq | hlt
      · have := Nat.mul_le_mul_right (tenTo s.length) (Nat.succ_le_of_lt hlt)
        rw [Nat.succ_mul] at this
        omega
      · exact heq
      · have := Nat.mul_le_mul_right (tenTo s.length) (Nat.succ_le_of_lt hlt)
        rw [Nat.succ_mul] at this
        omega
    have hchar : c = d := by
      have := digit_bounds hc
      have := digit_bounds hd
      exact Char.toNat_inj.mp (by omega)
    rw [hdigit] at h
    rw [hchar, ih hr hs hrest (Nat.add_left_cancel h)]

theorem valueOf_dropWhile (ds : List Char) : valueOf (ds.dropWhile (· = '0')) = valueOf ds := by
  induction ds with
  | nil => rfl
  | cons c r ih =>
    by_cases h : c = '0'
    · subst h
      rw [List.dropWhile_cons_of_pos (by simp), ih, valueOf_cons]
      simp
    · rw [List.dropWhile_cons_of_neg (by simpa using h)]

theorem valueOf_eq_zero_iff {ds : List Char} (h : allDigits ds = true) :
    valueOf ds = 0 ↔ ∀ c ∈ ds, c = '0' := by
  induction ds with
  | nil => simp [valueOf]
  | cons c r ih =>
    obtain ⟨hc, hr⟩ := allDigits_cons.mp h
    rw [List.forall_mem_cons, ← ih hr, valueOf_cons, Nat.add_eq_zero_iff, Nat.mul_eq_zero,
      or_iff_left (tenTo_pos _).ne', ← Char.toNat_inj]
    have := digit_bounds hc
    have hzero : '0'.toNat = 48 := rfl
    omega

/-! ## Numerals -/

/-- Digits before the point: a single zero, or digits of which the first is not zero. -/
inductive IsWhole : List Char → Prop
  | zero : IsWhole ['0']
  | digits (c : Char) (r : List Char) (hc : c.isDigit = true) (h0 : c ≠ '0')
    (hr : allDigits r = true) : IsWhole (c :: r)

theorem IsWhole.allDigits {w : List Char} (h : IsWhole w) : allDigits w = true := by
  cases h with
  | zero => decide
  | digits c r hc h0 hr => exact allDigits_cons.mpr ⟨hc, hr⟩

theorem isWhole_of_no_leading_zero {w : List Char} (hne : w ≠ []) (hw : allDigits w = true)
    (hlead : ¬ (1 < w.length ∧ w.head? = some '0')) : IsWhole w := by
  cases w with
  | nil => exact absurd rfl hne
  | cons c r =>
    obtain ⟨hc, hr⟩ := allDigits_cons.mp hw
    by_cases h0 : c = '0'
    · have hnil : r = [] := by
        by_contra hr0
        exact hlead ⟨by simpa using List.length_pos_iff.mpr hr0, by simp [h0]⟩
      rw [h0, hnil]
      exact .zero
    · exact .digits c r hc h0 hr

/-- A number has as many digits as spell it, if the first of them is not zero. -/
theorem length_digitsOf_valueOf {c : Char} {r : List Char} (hc : c.isDigit = true) (h0 : c ≠ '0')
    (hr : allDigits r = true) : (digitsOf (valueOf (c :: r))).length = (c :: r).length := by
  have hlt := valueOf_lt (allDigits_cons.mpr ⟨hc, hr⟩)
  have hle := le_valueOf_cons hc h0 r
  have hpos : 0 < (digitsOf (valueOf (c :: r))).length := Nat.length_toDigits_pos
  refine Nat.le_antisymm ((Nat.length_toDigits_le_iff (by decide) (Nat.succ_pos _)).mpr hlt) ?_
  by_contra hshort
  have hshort : (digitsOf (valueOf (c :: r))).length ≤ r.length := by
    rw [List.length_cons] at hshort
    omega
  have hsmall := (Nat.length_toDigits_le_iff (by decide) (by omega)).mp hshort
  exact absurd hle (Nat.not_le.mpr hsmall)

/-- Writing the number that digits spell, with zeros in front as far as the places need them, takes
as many digits again. -/
theorem IsWhole.length_padded {w f : List Char} (hw : IsWhole w) (hf : Decimal.allDigits f = true) :
    max (f.length + 1) (digitsOf (valueOf (w ++ f))).length = (w ++ f).length := by
  cases hw with
  | zero =>
    have hlt := valueOf_lt (allDigits_cons.mpr ⟨(by decide : '0'.isDigit = true), hf⟩)
    have hle : (digitsOf (valueOf ('0' :: f))).length ≤ f.length + 1 :=
      (Nat.length_toDigits_le_iff (by decide) (Nat.succ_pos _)).mpr hlt
    simpa using hle
  | digits c r hc h0 hr =>
    rw [List.cons_append, length_digitsOf_valueOf hc h0 (allDigits_append.mpr ⟨hr, hf⟩)]
    simp

/-- The parts of the text of a number, as the grammar `-?(0|[1-9][0-9]*)(\.[0-9]+)?` has them.
Where no digits follow the point, there is no point. -/
structure Numeral where
  negative : Bool
  whole : List Char
  fraction : List Char
  isWhole : IsWhole whole
  isFraction : allDigits fraction = true

namespace Numeral

/-- The text that the parts make up. -/
def chars (n : Numeral) : List Char :=
  (if n.negative then ['-'] else []) ++
    (n.whole ++ if n.fraction = [] then [] else '.' :: n.fraction)

/-- The digits before and after the point taken together. -/
def digits (n : Numeral) : List Char := n.whole ++ n.fraction

/-- The signed number that the digits spell. -/
def mantissa (n : Numeral) : Int :=
  if n.negative then -(valueOf n.digits : Int) else valueOf n.digits

/-- Whether a numeral can be read with a precision: it is no minus sign with zero digits only, and
neither the digits after leading zeros nor the digits after the point are too many. -/
structure IsReadable (n : Numeral) (precision : Nat) : Prop where
  not_minus_zero : ¬ (n.negative = true ∧ ∀ c ∈ n.digits, c = '0')
  significant_le : (n.digits.dropWhile (· = '0')).length ≤ precision
  places_le : n.fraction.length ≤ precision

variable {n : Numeral} {d : Decimal} {precision : Nat}

theorem allDigits_digits (n : Numeral) : allDigits n.digits = true :=
  allDigits_append.mpr ⟨n.isWhole.allDigits, n.isFraction⟩

theorem natAbs_mantissa (n : Numeral) : n.mantissa.natAbs = valueOf n.digits := by
  rw [mantissa]
  split <;> simp

/-! ## Decimals and their numerals -/

/-- A decimal is written with the digits of its numeral. -/
theorem wideDigits_eq (hm : d.mantissa = n.mantissa) (hs : d.scale = n.fraction.length) :
    d.wideDigits = n.digits := by
  have habs : d.mantissa.natAbs = valueOf n.digits := by rw [hm, natAbs_mantissa]
  refine valueOf_injective ?_ n.allDigits_digits ?_ (by rw [valueOf_wideDigits, habs])
  · exact List.all_eq_true.mpr fun _ h => isDigit_of_mem_wideDigits h
  · rw [length_wideDigits, hs, habs]
    exact n.isWhole.length_padded n.isFraction

/-- It is written with the text of its numeral, which must not be minus zero. -/
theorem chars_eq (hm : d.mantissa = n.mantissa) (hs : d.scale = n.fraction.length)
    (hn : ¬ (n.negative = true ∧ ∀ c ∈ n.digits, c = '0')) : d.chars = n.chars := by
  have hdigits := wideDigits_eq hm hs
  have hwhole : d.wholeDigits = n.whole := by
    rw [wholeDigits, hdigits, hs, digits, List.length_append, Nat.add_sub_cancel, List.take_left]
  have hfraction : d.fractionDigits = n.fraction := by
    rw [fractionDigits, hdigits, hs, digits, List.length_append, Nat.add_sub_cancel,
      List.drop_left]
  have hpoint : d.pointAndFraction = if n.fraction = [] then [] else '.' :: n.fraction := by
    simp only [pointAndFraction, hs, hfraction, List.length_eq_zero_iff]
  have hsign : d.mantissa < 0 ↔ n.negative = true := by
    rw [← valueOf_eq_zero_iff n.allDigits_digits] at hn
    rw [hm, mantissa]
    by_cases hneg : n.negative = true
    · have hpos : valueOf n.digits ≠ 0 := fun h0 => hn ⟨hneg, h0⟩
      rw [if_pos hneg, iff_true_right hneg]
      omega
    · rw [if_neg hneg, iff_false_right hneg]
      omega
  rw [Decimal.chars, pointed_digits, hwhole, hpoint, chars]
  by_cases hneg : n.negative = true
  · rw [if_pos (hsign.mpr hneg), if_pos hneg]
    rfl
  · rw [if_neg fun h => hneg (hsign.mp h), if_neg hneg]
    rfl

/-- A numeral with digits for a precision is the numeral of a decimal. -/
theorem exists_decimal (h : n.IsReadable (min precision maxPrecision)) :
    ∃ d : Decimal, d.mantissa = n.mantissa ∧ d.scale = n.fraction.length := by
  have hdigits : allDigits (n.digits.dropWhile (· = '0')) = true :=
    List.all_eq_true.mpr fun c hc =>
      List.all_eq_true.mp n.allDigits_digits c ((List.dropWhile_suffix _).subset hc)
  have hlt := valueOf_lt hdigits
  rw [valueOf_dropWhile] at hlt
  have hle := tenTo_le_tenTo (Nat.le_trans h.significant_le (Nat.min_le_right _ _))
  have hfits : Int128.Fits n.mantissa := by
    refine Int128.Fits.of_natAbs_lt ?_
    have hbound := tenTo_maxPrecision_le
    rw [natAbs_mantissa]
    omega
  exact ⟨⟨n.mantissa, n.fraction.length, hfits,
    Nat.le_trans h.places_le (Nat.min_le_right _ _)⟩, rfl, rfl⟩

end Numeral

/-- The digits before the point are those of a numeral. -/
theorem isWhole_wholeDigits (d : Decimal) : IsWhole d.wholeDigits :=
  isWhole_of_no_leading_zero d.wholeDigits_ne_nil d.allDigits_wholeDigits
    d.wholeDigits_no_leading_zero

/-- The numeral of a decimal. -/
def numeral (d : Decimal) : Numeral where
  negative := decide (d.mantissa < 0)
  whole := d.wholeDigits
  fraction := d.fractionDigits
  isWhole := d.isWhole_wholeDigits
  isFraction := d.allDigits_fractionDigits

theorem digits_numeral (d : Decimal) : d.numeral.digits = d.wideDigits :=
  d.wholeDigits_append_fractionDigits

theorem mantissa_numeral (d : Decimal) : d.numeral.mantissa = d.mantissa := by
  rw [Numeral.mantissa, digits_numeral, valueOf_wideDigits, numeral]
  by_cases h : d.mantissa < 0
  · rw [if_pos (decide_eq_true h)]
    omega
  · rw [if_neg (by simpa using h)]
    omega

theorem numeral_not_minus_zero (d : Decimal) :
    ¬ (d.numeral.negative = true ∧ ∀ c ∈ d.numeral.digits, c = '0') := by
  rw [← valueOf_eq_zero_iff d.numeral.allDigits_digits, digits_numeral, valueOf_wideDigits]
  rintro ⟨hneg, hzero⟩
  have : d.mantissa < 0 := of_decide_eq_true hneg
  omega

theorem chars_numeral (d : Decimal) : d.numeral.chars = d.chars :=
  (Numeral.chars_eq d.mantissa_numeral.symm d.length_fractionDigits.symm
    d.numeral_not_minus_zero).symm

/-! ## Taking any text apart -/

theorem splitSign_eq (cs : List Char) :
    cs = (if (splitSign cs).1 then ['-'] else []) ++ (splitSign cs).2 := by
  unfold splitSign
  split <;> rfl

theorem splitPoint_eq {cs whole : List Char} {after : Option (List Char)}
    (h : splitPoint cs = (whole, after)) :
    after = none ∧ cs = whole ∨ ∃ r, after = some r ∧ cs = whole ++ '.' :: r := by
  have hsplit := List.takeWhile_append_dropWhile (p := fun c => decide (c ≠ '.')) (l := cs)
  unfold splitPoint at h
  obtain ⟨rfl, rfl⟩ := Prod.mk.inj h
  cases hrest : cs.dropWhile (fun c => decide (c ≠ '.')) with
  | nil =>
    rw [hrest, List.append_nil] at hsplit
    exact .inl ⟨rfl, hsplit.symm⟩
  | cons c r =>
    have hc : c = '.' := by
      have := List.head?_dropWhile_not (fun c => decide (c ≠ '.')) cs
      rw [hrest] at this
      simpa using this
    rw [hrest, hc] at hsplit
    exact .inr ⟨r, rfl, hsplit.symm⟩

/-- The parts of a text that keep the rules of spelling are those of a numeral. -/
theorem exists_numeral {cs whole : List Char} {after : Option (List Char)}
    (hsplit : splitPoint (splitSign cs).2 = (whole, after))
    (hwhole : ¬ (whole.isEmpty || !allDigits whole) = true)
    (hlead : ¬ (1 < whole.length ∧ whole.head? = some '0')) (hpoint : after ≠ some [])
    (hfraction : ¬ (!allDigits (after.getD [])) = true) :
    ∃ n : Numeral, n.chars = cs ∧ n.negative = (splitSign cs).1 ∧ n.whole = whole ∧
      n.fraction = after.getD [] := by
  simp only [Bool.or_eq_true, not_or, List.isEmpty_iff, Bool.not_eq_true', Bool.not_eq_false]
    at hwhole hfraction
  refine ⟨⟨(splitSign cs).1, whole, after.getD [],
    isWhole_of_no_leading_zero hwhole.1 hwhole.2 hlead, hfraction⟩, ?_, rfl, rfl, rfl⟩
  have hcs := splitSign_eq cs
  obtain ⟨rfl, hbody⟩ | ⟨r, rfl, hbody⟩ := splitPoint_eq hsplit
  · rw [hbody] at hcs
    simpa [Numeral.chars] using hcs.symm
  · have hr : r ≠ [] := fun h => hpoint (h ▸ rfl)
    rw [hbody] at hcs
    simpa [Numeral.chars, hr] using hcs.symm

/-! ## Reading -/

variable {cs : List Char} {precision : Nat} {d : Decimal}

/-- Whether a refusal comes from a rule on the text, and not from the range of mantissas or from
the last look at the text. -/
def Refusal.IsRule : Refusal → Prop
  | .tooWide | .notCanonical => False
  | _ => True

/-- A text is refused by a rule, or it is that of a numeral with few enough digits and these are
read. -/
theorem read_cases (cs : List Char) (precision : Nat) :
    (∃ e, read cs precision = .error e ∧ e.IsRule) ∨
      ∃ n : Numeral, n.chars = cs ∧
        (n.digits.dropWhile (· = '0')).length ≤ min precision maxPrecision ∧
        n.fraction.length ≤ min precision maxPrecision ∧
        read cs precision = readDigits cs n.negative n.whole n.fraction := by
  obtain ⟨whole, after, hsplit⟩ : ∃ whole after, splitPoint (splitSign cs).2 = (whole, after) :=
    ⟨_, _, rfl⟩
  simp only [read, hsplit]
  by_cases hwhole : (whole.isEmpty || !allDigits whole) = true
  · exact .inl ⟨.noWholeDigits, if_pos hwhole, trivial⟩
  by_cases hlead : 1 < whole.length ∧ whole.head? = some '0'
  · exact .inl ⟨.leadingZero, by rw [if_neg hwhole, if_pos hlead], trivial⟩
  by_cases hpoint : after = some []
  · exact .inl ⟨.trailingPoint, by rw [if_neg hwhole, if_neg hlead, if_pos hpoint], trivial⟩
  by_cases hfraction : (!allDigits (after.getD [])) = true
  · exact .inl ⟨.badFraction, by
      rw [if_neg hwhole, if_neg hlead, if_neg hpoint, if_pos hfraction], trivial⟩
  rw [if_neg hwhole, if_neg hlead, if_neg hpoint, if_neg hfraction]
  obtain ⟨n, hchars, hneg, rfl, hn⟩ := exists_numeral hsplit hwhole hlead hpoint hfraction
  rw [← hn, ← hneg]
  by_cases hdigits : min precision maxPrecision <
      ((n.whole ++ n.fraction).dropWhile (· = '0')).length
  · exact .inl ⟨.tooManyDigits _ _, if_pos hdigits, trivial⟩
  by_cases hplaces : min precision maxPrecision < n.fraction.length
  · exact .inl ⟨.tooManyPlaces _ _, by rw [if_neg hdigits, if_pos hplaces], trivial⟩
  rw [if_neg hdigits, if_neg hplaces]
  exact .inr ⟨n, hchars, Nat.not_lt.mp hdigits, Nat.not_lt.mp hplaces, rfl⟩

/-- What is read prints back to what it was read from. -/
theorem chars_of_read (h : read cs precision = .ok d) : d.chars = cs := by
  obtain ⟨e, he, -⟩ | ⟨n, -, -, -, hn⟩ := read_cases cs precision
  · rw [h] at he
    cases he
  · rw [h] at hn
    obtain ⟨-, -, -, hchars⟩ := readDigits_eq_ok_iff.mp hn.symm
    exact hchars

/-- Exactly the readable numerals are read, as the decimals that they stand for. -/
theorem read_eq_ok_iff : read cs precision = .ok d ↔
    ∃ n : Numeral, n.chars = cs ∧ n.IsReadable (min precision maxPrecision) ∧
      d.mantissa = n.mantissa ∧ d.scale = n.fraction.length := by
  constructor
  · intro h
    obtain rfl := chars_of_read h
    rw [read_chars] at h
    by_cases hdigits : min precision maxPrecision < d.significant
    · rw [if_pos hdigits] at h
      cases h
    rw [if_neg hdigits] at h
    by_cases hplaces : min precision maxPrecision < d.scale
    · rw [if_pos hplaces] at h
      cases h
    refine ⟨d.numeral, d.chars_numeral, ⟨d.numeral_not_minus_zero, ?_, ?_⟩,
      d.mantissa_numeral.symm, d.length_fractionDigits.symm⟩
    · rw [digits_numeral]
      exact Nat.not_lt.mp hdigits
    · exact d.length_fractionDigits.trans_le (Nat.not_lt.mp hplaces)
  · rintro ⟨n, rfl, hn, hm, hs⟩
    have hdigits : ¬ min precision maxPrecision < d.significant := by
      rw [significant, Numeral.wideDigits_eq hm hs]
      exact Nat.not_lt.mpr hn.significant_le
    have hplaces : ¬ min precision maxPrecision < d.scale := by
      rw [hs]
      exact Nat.not_lt.mpr hn.places_le
    rw [← Numeral.chars_eq hm hs hn.not_minus_zero, read_chars, if_neg hdigits, if_neg hplaces]

/-- Every readable numeral is read. -/
theorem exists_read {n : Numeral} (h : n.IsReadable (min precision maxPrecision)) :
    ∃ d, read n.chars precision = .ok d ∧ d.mantissa = n.mantissa ∧
      d.scale = n.fraction.length := by
  obtain ⟨d, hm, hs⟩ := Numeral.exists_decimal h
  exact ⟨d, read_eq_ok_iff.mpr ⟨n, rfl, h, hm, hs⟩, hm, hs⟩

/-- Neither the range of mantissas nor the last look at the text is ever the reason for a
refusal. -/
theorem isRule_of_read {e : Refusal} (h : read cs precision = .error e) : e.IsRule := by
  obtain ⟨e', he, hrule⟩ | ⟨n, rfl, hdigits, hplaces, hn⟩ := read_cases cs precision
  · rw [h] at he
    cases he
    exact hrule
  · by_cases hzero : n.negative = true ∧ ∀ c ∈ n.digits, c = '0'
    · have hvalue := (valueOf_eq_zero_iff n.allDigits_digits).mpr hzero.2
      have hmantissa : readMantissa n.negative (n.whole ++ n.fraction) = .error .negativeZero := by
        rw [readMantissa, show n.whole ++ n.fraction = n.digits from rfl, hvalue, hzero.1]
        rfl
      rw [h, readDigits_of_error hmantissa] at hn
      cases hn
      exact trivial
    · obtain ⟨d, hd, -⟩ := exists_read (n := n) ⟨hzero, hdigits, hplaces⟩
      rw [h] at hd
      cases hd

theorem parse_eq_ok_iff {text : String} :
    parse text precision = .ok d ↔ read text.toList precision = .ok d := by
  rw [parse]
  cases read text.toList precision <;> simp

theorem text_of_parse {text : String} (h : parse text precision = .ok d) : d.text = text := by
  rw [Decimal.text, chars_of_read (parse_eq_ok_iff.mp h), String.ofList_toList]

theorem length_digits_le_iff (d : Decimal) (q : Nat) :
    (Nat.digits 10 d.mantissa.natAbs).length ≤ q ↔ d.significant ≤ q := by
  rw [significant_le_iff, Nat.digits_length_le_iff (by decide)]
  exact Iff.rfl

/-- A decimal is read from its own text exactly if it has few enough digits and places. -/
theorem exists_parse_text_iff (d : Decimal) (precision : Nat) :
    (∃ e, parse d.text precision = .ok e) ↔
      (Nat.digits 10 d.mantissa.natAbs).length ≤ min precision maxPrecision ∧
        d.scale ≤ min precision maxPrecision := by
  have hchars : d.text.toList = d.chars := String.toList_ofList
  simp only [parse_eq_ok_iff, hchars, length_digits_le_iff, read_chars]
  by_cases hdigits : min precision maxPrecision < d.significant
  · simp only [if_pos hdigits, Nat.not_le.mpr hdigits, false_and, iff_false]
    rintro ⟨e, he⟩
    cases he
  by_cases hplaces : min precision maxPrecision < d.scale
  · simp only [if_neg hdigits, if_pos hplaces, Nat.not_le.mpr hplaces, and_false, iff_false]
    rintro ⟨e, he⟩
    cases he
  rw [if_neg hdigits, if_neg hplaces]
  exact iff_of_true ⟨d, rfl⟩ ⟨Nat.not_lt.mp hdigits, Nat.not_lt.mp hplaces⟩

/-- A text is read exactly if it is a readable numeral, as the number that its digits spell with as
many places as it has, and prints back to itself. The text of a decimal is read exactly if the
mantissa has few enough digits, of which zero has none, and the places are few enough, and then as
that decimal. Only the rules on the text ever refuse it. -/
theorem parse_exact (text : String) (precision : Nat) :
    ((∃ d, parse text precision = .ok d) ↔
        ∃ n : Numeral, n.chars = text.toList ∧ n.IsReadable (min precision maxPrecision)) ∧
      (∀ (n : Numeral) (d : Decimal), n.chars = text.toList →
        n.IsReadable (min precision maxPrecision) → parse text precision = .ok d →
          d.mantissa = n.mantissa ∧ d.scale = n.fraction.length ∧ d.text = text) ∧
      (∀ d : Decimal, d.text = text →
        ((∃ e, parse text precision = .ok e) ↔
          (Nat.digits 10 d.mantissa.natAbs).length ≤ min precision maxPrecision ∧
            d.scale ≤ min precision maxPrecision) ∧
          ∀ e, parse text precision = .ok e → e = d) ∧
      ∀ e, read text.toList precision = .error e → e.IsRule := by
  refine ⟨⟨?_, ?_⟩, ?_, ?_, fun e => isRule_of_read⟩
  · rintro ⟨d, hd⟩
    obtain ⟨n, hchars, hn, -⟩ := read_eq_ok_iff.mp (parse_eq_ok_iff.mp hd)
    exact ⟨n, hchars, hn⟩
  · rintro ⟨n, hchars, hn⟩
    obtain ⟨d, hd, -⟩ := exists_read hn
    exact ⟨d, parse_eq_ok_iff.mpr (hchars ▸ hd)⟩
  · intro n d hchars hn hd
    obtain ⟨d', hd', hm, hs⟩ := exists_read hn
    have hsame : d' = d := by
      rw [hchars, parse_eq_ok_iff.mp hd] at hd'
      exact (Except.ok.inj hd').symm
    exact ⟨hsame ▸ hm, hsame ▸ hs, text_of_parse hd⟩
  · rintro d rfl
    exact ⟨exists_parse_text_iff d precision, fun e he => text_injective (text_of_parse he)⟩

end LedgerGate.Decimal

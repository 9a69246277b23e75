import LedgerGate.Decimal.Text
import LedgerGate.Proofs.Text.Digits

/-!
# Reading the text of a decimal back

The text of a decimal is the digits of its mantissa with a point before the last of them, as
many as the scale says. The reader takes that text apart again at the point; whether it
accepts it depends on the number of digits alone (`read_chars`). A mantissa may have one digit
more than any precision allows, and then the text is refused.
-/

namespace LedgerGate.Decimal

/-- The digits of the mantissa, with zeros in front when the fraction needs them. -/
def wideDigits (d : Decimal) : List Char := padded (d.scale + 1) (digitsOf d.mantissa.natAbs)

/-- The digits before the point. -/
def wholeDigits (d : Decimal) : List Char :=
  d.wideDigits.take (d.wideDigits.length - d.scale)

/-- The digits after the point. -/
def fractionDigits (d : Decimal) : List Char :=
  d.wideDigits.drop (d.wideDigits.length - d.scale)

/-- The point and what follows it, if anything does. -/
def pointAndFraction (d : Decimal) : List Char :=
  if d.scale = 0 then [] else '.' :: d.fractionDigits

theorem length_wideDigits (d : Decimal) :
    d.wideDigits.length = max (d.scale + 1) (digitsOf d.mantissa.natAbs).length := by
  simp only [wideDigits, padded, List.length_append, List.length_replicate]
  omega

theorem wholeDigits_append_fractionDigits (d : Decimal) :
    d.wholeDigits ++ d.fractionDigits = d.wideDigits := List.take_append_drop _ _

theorem length_fractionDigits (d : Decimal) : d.fractionDigits.length = d.scale := by
  rw [fractionDigits, List.length_drop, length_wideDigits]
  omega

theorem length_wholeDigits (d : Decimal) :
    d.wholeDigits.length = d.wideDigits.length - d.scale := by
  rw [wholeDigits, List.length_take]
  omega

theorem wholeDigits_ne_nil (d : Decimal) : d.wholeDigits ≠ [] := by
  intro h
  have := d.length_wholeDigits
  rw [h, length_wideDigits] at this
  simp at this
  omega

theorem padded_self {ds : List Char} {n : Nat} (h : n ≤ ds.length) : padded n ds = ds := by
  rw [padded, Nat.sub_eq_zero_of_le h]
  rfl

theorem pointed_digits (d : Decimal) :
    pointed d.scale (digitsOf d.mantissa.natAbs) = d.wholeDigits ++ d.pointAndFraction := by
  unfold pointed pointAndFraction
  split
  · next h =>
    have hlen : 1 ≤ (digitsOf d.mantissa.natAbs).length := Nat.length_toDigits_pos
    rw [wholeDigits, wideDigits, h, padded_self hlen]
    simp
  · rfl

theorem isDigit_of_mem_wideDigits {d : Decimal} {c : Char} (h : c ∈ d.wideDigits) :
    c.isDigit = true := by
  rw [wideDigits, padded, List.mem_append, List.mem_replicate] at h
  rcases h with ⟨-, rfl⟩ | h
  · decide
  · exact List.all_eq_true.mp (Text.allDigits_toDigits _) c h

theorem allDigits_wholeDigits (d : Decimal) : allDigits d.wholeDigits = true :=
  List.all_eq_true.mpr fun _ h => isDigit_of_mem_wideDigits (List.mem_of_mem_take h)

theorem allDigits_fractionDigits (d : Decimal) : allDigits d.fractionDigits = true :=
  List.all_eq_true.mpr fun _ h => isDigit_of_mem_wideDigits (List.mem_of_mem_drop h)

/-- Zeros are put in front of the digits only as far as one stands before the point. -/
theorem wholeDigits_no_leading_zero (d : Decimal) :
    ¬ (1 < d.wholeDigits.length ∧ d.wholeDigits.head? = some '0') := by
  rintro ⟨hlen, hhead⟩
  rw [length_wholeDigits, length_wideDigits] at hlen
  have hle : d.scale + 1 ≤ (digitsOf d.mantissa.natAbs).length := by omega
  refine Text.no_leading_zero d.mantissa.natAbs ⟨?_, ?_⟩
  · show 1 < (digitsOf d.mantissa.natAbs).length
    omega
  · rw [wholeDigits, wideDigits, padded_self hle] at hhead
    rwa [List.head?_take, if_neg (by omega)] at hhead

theorem valueOf_wideDigits (d : Decimal) : valueOf d.wideDigits = d.mantissa.natAbs := by
  rw [valueOf, wideDigits, padded, Nat.ofDigitChars_append, Nat.ofDigitChars_replicate_zero,
    Nat.mul_zero]
  exact Nat.ofDigitChars_ten_toDigits

/-! ## Digits that count -/

/-- The digits of a number that count. -/
def significant (d : Decimal) : Nat := (d.wideDigits.dropWhile (· = '0')).length

theorem dropWhile_wideDigits (d : Decimal) :
    d.wideDigits.dropWhile (· = '0') = (digitsOf d.mantissa.natAbs).dropWhile (· = '0') := by
  rw [wideDigits, padded, List.dropWhile_append_of_pos (by simp)]

theorem significant_le_iff (d : Decimal) (q : Nat) :
    d.significant ≤ q ↔ d.mantissa.natAbs < tenTo q := by
  rw [significant, dropWhile_wideDigits]
  by_cases h0 : d.mantissa.natAbs = 0
  · have hz : (digitsOf 0).dropWhile (· = '0') = [] := by decide
    rw [h0, hz]
    simp [tenTo_pos]
  · rw [digitsOf, Text.dropWhile_toDigits h0]
    cases q with
    | zero =>
      have : 0 < (Nat.toDigits 10 d.mantissa.natAbs).length := Nat.length_toDigits_pos
      simp only [tenTo_zero]
      omega
    | succ q => exact Nat.length_toDigits_le_iff (by decide) (Nat.succ_pos q)

/-! ## Taking the text apart -/

theorem splitSign_digit {c : Char} (cs : List Char) (hc : c ≠ '-') :
    splitSign (c :: cs) = (false, c :: cs) := by
  unfold splitSign
  split
  · next h => exact absurd (List.cons.inj h).1 hc
  · rfl

theorem splitSign_chars (d : Decimal) :
    splitSign d.chars = (decide (d.mantissa < 0), d.wholeDigits ++ d.pointAndFraction) := by
  rw [chars, pointed_digits]
  by_cases h : d.mantissa < 0
  · simp [h, splitSign]
  · obtain ⟨c, r, hcr⟩ := List.exists_cons_of_ne_nil d.wholeDigits_ne_nil
    have hc : c ≠ '-' := by
      rintro rfl
      have := List.all_eq_true.mp d.allDigits_wholeDigits '-' (by simp [hcr])
      exact absurd this (by decide)
    rw [if_neg h, hcr, List.cons_append, splitSign_digit _ hc, decide_eq_false h]

theorem splitPoint_digits (d : Decimal) :
    splitPoint (d.wholeDigits ++ d.pointAndFraction) =
      (d.wholeDigits, if d.scale = 0 then none else some d.fractionDigits) := by
  have hw : ∀ c ∈ d.wholeDigits, decide (c ≠ '.') = true := by
    intro c hc
    refine decide_eq_true ?_
    rintro rfl
    exact absurd (List.all_eq_true.mp d.allDigits_wholeDigits '.' hc) (by decide)
  rw [splitPoint, List.takeWhile_append_of_pos hw, List.dropWhile_append_of_pos hw,
    pointAndFraction]
  split <;> simp

theorem getD_fraction (d : Decimal) :
    (if d.scale = 0 then none else some d.fractionDigits).getD [] = d.fractionDigits := by
  split
  · next h => exact (List.eq_nil_of_length_eq_zero (d.length_fractionDigits.trans h)).symm
  · rfl

theorem fraction_ne_some_nil (d : Decimal) :
    (if d.scale = 0 then none else some d.fractionDigits) ≠ some [] := by
  split
  · simp
  · next h =>
    intro e
    have := d.length_fractionDigits
    rw [Option.some.inj e] at this
    exact h this.symm

theorem tenTo_le_tenTo {m n : Nat} (h : m ≤ n) : tenTo m ≤ tenTo n :=
  Nat.pow_le_pow_right (by decide) h

/-- Every run of thirty-eight digits fits the mantissa. -/
theorem tenTo_maxPrecision_le : (tenTo maxPrecision : Int) ≤ Int128.bound := by
  simp [tenTo, maxPrecision, Int128.bound]

theorem fits_natAbs {n : Int} (h : n.natAbs < tenTo maxPrecision) :
    Int128.Fits (n.natAbs : Int) :=
  Int128.Fits.of_natAbs_lt (Int.lt_of_lt_of_le (Int.ofNat_lt.mpr h) tenTo_maxPrecision_le)

theorem readMantissa_wideDigits (d : Decimal) (h : Int128.Fits (d.mantissa.natAbs : Int)) :
    readMantissa (decide (d.mantissa < 0)) d.wideDigits = .ok d.mantissa := by
  rw [readMantissa, valueOf_wideDigits, if_neg (not_not.mpr h)]
  by_cases hneg : d.mantissa < 0
  · rw [if_pos (decide_eq_true hneg), if_neg (by omega),
      show -(d.mantissa.natAbs : Int) = d.mantissa by omega]
  · rw [if_neg (by simpa using hneg), show (d.mantissa.natAbs : Int) = d.mantissa by omega]

theorem readDigits_eq_ok_iff {cs whole fraction : List Char} {negative : Bool} {d : Decimal} :
    readDigits cs negative whole fraction = .ok d ↔
      ∃ m, readMantissa negative (whole ++ fraction) = .ok m ∧
        make? m fraction.length = some d ∧ d.chars = cs := by
  -- Opened apart from its arguments, for which one would try to compute whether they fit.
  obtain ⟨f, hf⟩ : ∃ f, f = readDigits := ⟨_, rfl⟩
  rw [← hf]
  delta readDigits at hf
  rw [hf]
  cases hm : readMantissa negative (whole ++ fraction) with
  | error e => simp [hm]
  | ok m =>
    cases hd : make? m fraction.length with
    | none => simp [hm, hd]
    | some e =>
      by_cases hchars : e.chars = cs
      · simp only [hm, hd, hchars, if_true, Except.ok.injEq, exists_eq_left', Option.some.injEq]
        exact ⟨fun h => ⟨h, h ▸ hchars⟩, fun h => h.1⟩
      · simp only [hm, hd, hchars, if_false, Except.ok.injEq, exists_eq_left', Option.some.injEq]
        exact ⟨nofun, fun h => absurd (h.1 ▸ h.2) hchars⟩

theorem readDigits_of_error {cs whole fraction : List Char} {negative : Bool} {e : Refusal}
    (h : readMantissa negative (whole ++ fraction) = .error e) :
    readDigits cs negative whole fraction = .error e := by
  obtain ⟨f, hf⟩ : ∃ f, f = readDigits := ⟨_, rfl⟩
  rw [← hf]
  delta readDigits at hf
  rw [hf]
  simp only [h]

theorem readDigits_chars (d : Decimal) (h : Int128.Fits (d.mantissa.natAbs : Int)) :
    readDigits d.chars (decide (d.mantissa < 0)) d.wholeDigits d.fractionDigits = .ok d := by
  refine readDigits_eq_ok_iff.mpr ⟨d.mantissa, ?_, ?_, rfl⟩
  · rw [wholeDigits_append_fractionDigits, d.readMantissa_wideDigits h]
  · exact make?_eq_some_iff.mpr ⟨rfl, d.length_fractionDigits.symm⟩

/-- The text of a decimal is read as that decimal if it has no more digits that count, and no
more places, than the precision allows, and else it is refused. -/
theorem read_chars (d : Decimal) (precision : Nat) :
    read d.chars precision =
      if min precision maxPrecision < d.significant then
        .error (.tooManyDigits d.significant (min precision maxPrecision))
      else if min precision maxPrecision < d.scale then
        .error (.tooManyPlaces d.scale (min precision maxPrecision))
      else .ok d := by
  simp only [read, splitSign_chars, splitPoint_digits, getD_fraction,
    wholeDigits_append_fractionDigits, d.allDigits_wholeDigits, d.allDigits_fractionDigits,
    length_fractionDigits]
  rw [if_neg (by simp [wholeDigits_ne_nil]), if_neg d.wholeDigits_no_leading_zero,
    if_neg d.fraction_ne_some_nil, if_neg (by simp)]
  change (if min precision maxPrecision < d.significant then _ else _) = _
  split
  · rfl
  · next h =>
    have hlt := (d.significant_le_iff _).mp (Nat.not_lt.mp h)
    rw [readDigits_chars d (fits_natAbs
      (Nat.lt_of_lt_of_le hlt (tenTo_le_tenTo (Nat.min_le_right _ _))))]

/-- The text of a decimal can be read again exactly if its mantissa has no more digits than
the largest precision. -/
theorem read_chars_maxPrecision (d : Decimal) :
    (read d.chars maxPrecision).toOption =
      if d.mantissa.natAbs < tenTo maxPrecision then some d else none := by
  have hs : ¬ maxPrecision < d.scale := Nat.not_lt.mpr d.scale_le
  rw [read_chars, Nat.min_self, if_neg hs]
  by_cases h : d.mantissa.natAbs < tenTo maxPrecision
  · rw [if_neg (Nat.not_lt.mpr ((d.significant_le_iff _).mpr h)), if_pos h]
    rfl
  · rw [if_pos (Nat.not_le.mp fun hle => h ((d.significant_le_iff _).mp hle)), if_neg h]
    rfl

/-- A decimal can be told from its text, also where that is too long to be read. -/
theorem chars_injective {d e : Decimal} (h : d.chars = e.chars) : d = e := by
  have hsplit := congrArg splitSign h
  rw [splitSign_chars, splitSign_chars] at hsplit
  obtain ⟨hsign, hdigits⟩ := Prod.mk.inj hsplit
  have hpoint := congrArg splitPoint hdigits
  rw [splitPoint_digits, splitPoint_digits] at hpoint
  obtain ⟨hwhole, hfraction⟩ := Prod.mk.inj hpoint
  have hfraction : d.fractionDigits = e.fractionDigits := by
    rw [← getD_fraction d, ← getD_fraction e, hfraction]
  have hscale : d.scale = e.scale := by
    rw [← length_fractionDigits d, ← length_fractionDigits e, hfraction]
  have habs : d.mantissa.natAbs = e.mantissa.natAbs := by
    rw [← valueOf_wideDigits, ← valueOf_wideDigits, ← wholeDigits_append_fractionDigits,
      ← wholeDigits_append_fractionDigits, hwhole, hfraction]
  have hneg : d.mantissa < 0 ↔ e.mantissa < 0 := decide_eq_decide.mp hsign
  exact Decimal.ext (by omega) hscale

theorem text_injective {d e : Decimal} (h : d.text = e.text) : d = e :=
  chars_injective (String.ofList_injective h)

end LedgerGate.Decimal

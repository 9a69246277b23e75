import Mathlib
import LedgerGate.Decimal.Basic

/-!
# The value of a decimal

A decimal stands for a rational number (`Decimal.value`). Normal forms keep it, and there is one
for each value; equality of values is what `sameValue` decides, and a sum that does not fail is
the sum of the values.
-/

namespace LedgerGate.Decimal

/-- The rational number that a decimal stands for. -/
def value (d : Decimal) : ℚ := d.mantissa / tenTo d.scale

theorem tenTo_cast_pos (n : Nat) : (0 : ℚ) < tenTo n := Nat.cast_pos.mpr (tenTo_pos n)

theorem tenTo_cast_ne_zero (n : Nat) : (tenTo n : ℚ) ≠ 0 := (tenTo_cast_pos n).ne'

@[simp]
theorem value_zero : value 0 = 0 := by
  show ((0 : Int) : ℚ) / _ = 0
  simp

theorem value_nonneg_iff {d : Decimal} : 0 ≤ d.value ↔ d.isNegative = false := by
  rw [value, le_div_iff₀ (tenTo_cast_pos _), zero_mul, isNegative, decide_eq_false_iff_not,
    not_lt, Int.cast_nonneg_iff]

theorem stripZeros_value (m : Int) (s : Nat) :
    ((stripZeros m s).1 : ℚ) / tenTo (stripZeros m s).2 = m / tenTo s := by
  induction s generalizing m with
  | zero => rfl
  | succ s ih =>
    unfold stripZeros
    split
    · next h =>
      have hm : (m : ℚ) = (m / 10 : Int) * 10 := by
        have := Int.ediv_mul_cancel (Int.dvd_of_emod_eq_zero h)
        exact_mod_cast this.symm
      rw [ih, hm, tenTo_succ, Nat.cast_mul]
      exact (mul_div_mul_right _ _ (by norm_num)).symm
    · rfl

@[simp]
theorem value_normalize (d : Decimal) : d.normalize.value = d.value := stripZeros_value _ _

/-- At a scale not below its own, a decimal's value is its mantissa there over that power. -/
theorem mantissaAt_value {d : Decimal} {s : Nat} (h : d.scale ≤ s) :
    (d.mantissaAt s : ℚ) / tenTo s = d.value := by
  have hs : tenTo s = tenTo d.scale * tenTo (s - d.scale) := by
    rw [← tenTo_add, Nat.add_sub_cancel' h]
  rw [mantissaAt, value, hs]
  push_cast
  exact mul_div_mul_right _ _ (tenTo_cast_ne_zero _)

/-! ## Normal forms -/

/-- Whether a mantissa at a scale has no trailing zero in its fraction. -/
def IsStripped (m : Int) (s : Nat) : Prop := s = 0 ∨ m % 10 ≠ 0

theorem isStripped_stripZeros (m : Int) (s : Nat) :
    IsStripped (stripZeros m s).1 (stripZeros m s).2 := by
  induction s generalizing m with
  | zero => exact .inl rfl
  | succ s ih =>
    unfold stripZeros
    split
    · exact ih _
    · next h => exact .inr h

/-- Of two stripped decimals of one value neither has more fraction digits. -/
theorem scale_le_of_value_eq {a b : Decimal} (hb : IsStripped b.mantissa b.scale)
    (h : a.value = b.value) : b.scale ≤ a.scale := by
  by_contra hlt
  have hmantissa : b.mantissa = a.mantissa * tenTo (b.scale - a.scale) := by
    have hat := (mantissaAt_value (Nat.le_of_not_le hlt)).trans h
    rw [value, div_left_inj' (tenTo_cast_ne_zero _)] at hat
    exact_mod_cast hat.symm
  obtain ⟨k, hk⟩ : ∃ k, b.scale - a.scale = k + 1 := ⟨b.scale - a.scale - 1, by omega⟩
  rw [hk, tenTo_succ, Nat.cast_mul, ← mul_assoc] at hmantissa
  rcases hb with hzero | hdigit
  · omega
  · exact hdigit (hmantissa ▸ Int.mul_emod_left _ _)

/-- Decimals of one value have one normal form. -/
theorem normalize_eq_of_value_eq {a b : Decimal} (h : a.value = b.value) :
    a.normalize = b.normalize := by
  have hvalue : a.normalize.value = b.normalize.value := by
    rw [value_normalize, value_normalize, h]
  have ha : IsStripped a.normalize.mantissa a.normalize.scale := isStripped_stripZeros _ _
  have hb : IsStripped b.normalize.mantissa b.normalize.scale := isStripped_stripZeros _ _
  have hscale : a.normalize.scale = b.normalize.scale :=
    Nat.le_antisymm (scale_le_of_value_eq ha hvalue.symm) (scale_le_of_value_eq hb hvalue)
  have hmantissa : a.normalize.mantissa = b.normalize.mantissa := by
    rw [value, value, hscale, div_left_inj' (tenTo_cast_ne_zero _)] at hvalue
    exact_mod_cast hvalue
  exact Decimal.ext hmantissa hscale

theorem normalize_eq_iff {a b : Decimal} : a.normalize = b.normalize ↔ a.value = b.value := by
  constructor
  · intro h
    rw [← value_normalize a, h, value_normalize]
  · exact normalize_eq_of_value_eq

@[simp]
theorem normalize_normalize (d : Decimal) : d.normalize.normalize = d.normalize :=
  normalize_eq_of_value_eq (value_normalize d)

/-! ## Arithmetic -/

theorem value_add {a b c : Decimal} (h : a.add b = .ok c) : c.value = a.value + b.value := by
  unfold add orOverflow at h
  split at h
  · next d hd =>
    obtain rfl := Except.ok.inj h
    simp only [Option.bind_eq_bind, Option.bind_eq_some_iff, Int128.checked_eq_some_iff,
      make?_eq_some_iff] at hd
    obtain ⟨x, ⟨-, rfl⟩, y, ⟨-, rfl⟩, hm, hs⟩ := hd
    rw [← mantissaAt_value (Nat.le_max_left a.scale b.scale),
      ← mantissaAt_value (Nat.le_max_right a.scale b.scale), ← add_div, value, hm, hs]
    push_cast
    rfl
  · exact absurd h nofun

theorem value_make? {m : Int} {s : Nat} {operation : String} {c : Decimal}
    (h : orOverflow operation (make? m s) = .ok c) : c.value = m / tenTo s := by
  unfold orOverflow at h
  split at h
  · next d hd =>
    obtain rfl := Except.ok.inj h
    obtain ⟨hm, hs⟩ := make?_eq_some_iff.mp hd
    rw [value, hm, hs]
  · exact absurd h nofun

theorem value_neg {a c : Decimal} (h : a.neg = .ok c) : c.value = -a.value := by
  rw [value_make? h, value, Int.cast_neg, neg_div]

theorem value_sub {a b c : Decimal} (h : a.sub b = .ok c) : c.value = a.value - b.value := by
  unfold sub at h
  split at h
  · next n hn => rw [value_add h, value_neg hn, sub_eq_add_neg]
  · exact absurd h nofun

theorem value_mul {a b c : Decimal} (h : a.mul b = .ok c) : c.value = a.value * b.value := by
  rw [value_make? h, ← value_normalize a, ← value_normalize b, value, value, tenTo_add]
  push_cast
  exact (div_mul_div_comm _ _ _ _).symm

theorem value_sumFrom {start : Decimal} {ds : List Decimal} {s : Decimal}
    (h : sumFrom start ds = .ok s) : s.value = start.value + (ds.map value).sum := by
  induction ds generalizing start with
  | nil =>
    obtain rfl := Except.ok.inj h
    simp
  | cons d r ih =>
    unfold sumFrom at h
    split at h
    · next t ht => rw [ih h, value_add ht, List.map_cons, List.sum_cons, add_assoc]
    · exact absurd h nofun

/-- A sum that does not fail is exact. -/
theorem value_sum {ds : List Decimal} {s : Decimal} (h : sum ds = .ok s) :
    s.value = (ds.map value).sum := by
  rw [value_sumFrom h, value_zero, zero_add]

theorem value_eq_whole_add (d : Decimal) (s : Nat) (h : d.scale ≤ s) :
    d.value = d.whole + (d.fractionAt s : ℚ) / tenTo s := by
  have hs : tenTo s = tenTo d.scale * tenTo (s - d.scale) := by
    rw [← tenTo_add, Nat.add_sub_cancel' h]
  have hm : (d.mantissa : ℚ) =
      d.whole * tenTo d.scale + (d.mantissa.tmod (tenTo d.scale) : Int) := by
    have := Int.mul_tdiv_add_tmod d.mantissa (tenTo d.scale)
    rw [whole]
    exact_mod_cast by rw [mul_comm]; exact this.symm
  have h1 := tenTo_cast_ne_zero d.scale
  have h2 := tenTo_cast_ne_zero (s - d.scale)
  rw [value, fractionAt, hs, hm]
  push_cast
  field_simp

theorem sameValue_self (d : Decimal) : d.sameValue d = true := by
  simp [sameValue, order]

theorem value_eq_of_sameValue {a b : Decimal} (h : a.sameValue b = true) : a.value = b.value := by
  have ho : a.order b = .eq := by simpa [sameValue] using h
  rw [order, Ordering.then_eq_eq, Std.LawfulEqCmp.compare_eq_iff_eq,
    Std.LawfulEqCmp.compare_eq_iff_eq] at ho
  rw [value_eq_whole_add a _ (Nat.le_max_left a.scale b.scale),
    value_eq_whole_add b _ (Nat.le_max_right a.scale b.scale), ho.1]
  exact congrArg (fun n : Int => (b.whole : ℚ) + n / tenTo (a.commonScale b)) ho.2

/-- The part before the point does not depend on the scale. -/
theorem whole_eq_tdiv (d : Decimal) {s : Nat} (h : d.scale ≤ s) :
    d.whole = (d.mantissaAt s).tdiv (tenTo s) := by
  have hpos : (0 : Int) < tenTo (s - d.scale) := Int.natCast_pos.mpr (tenTo_pos _)
  have hs : (tenTo s : Int) = tenTo d.scale * tenTo (s - d.scale) := by
    rw [← Nat.cast_mul, ← tenTo_add, Nat.add_sub_cancel' h]
  rw [whole, mantissaAt, hs, Int.mul_tdiv_mul_of_pos_left _ _ hpos]

/-- The digits after the point are what is left of the mantissa at their scale. -/
theorem fractionAt_eq_tmod (d : Decimal) {s : Nat} (h : d.scale ≤ s) :
    d.fractionAt s = (d.mantissaAt s).tmod (tenTo s) := by
  have hpos : (0 : Int) < tenTo (s - d.scale) := Int.natCast_pos.mpr (tenTo_pos _)
  have hs : (tenTo s : Int) = tenTo (s - d.scale) * tenTo d.scale := by
    rw [← Nat.cast_mul, ← tenTo_add, Nat.sub_add_cancel h]
  rw [fractionAt, mantissaAt, hs, mul_comm, mul_comm d.mantissa, Int.mul_tmod_mul_of_pos _ _ hpos]

/-- Decimals compare as equal exactly if they have one value. -/
theorem sameValue_iff {a b : Decimal} : a.sameValue b = true ↔ a.value = b.value := by
  constructor
  · exact value_eq_of_sameValue
  · intro h
    have ha : a.scale ≤ commonScale a b := Nat.le_max_left _ _
    have hb : b.scale ≤ commonScale a b := Nat.le_max_right _ _
    have hmantissa : a.mantissaAt (commonScale a b) = b.mantissaAt (commonScale a b) := by
      have hat := (mantissaAt_value ha).trans (h.trans (mantissaAt_value hb).symm)
      rw [div_left_inj' (tenTo_cast_ne_zero _)] at hat
      exact_mod_cast hat
    have hwhole : a.whole = b.whole := by rw [whole_eq_tdiv a ha, whole_eq_tdiv b hb, hmantissa]
    have hfraction : a.fractionAt (commonScale a b) = b.fractionAt (commonScale a b) := by
      rw [fractionAt_eq_tmod a ha, fractionAt_eq_tmod b hb, hmantissa]
    simp [sameValue, order, hwhole, hfraction]

end LedgerGate.Decimal

import LedgerGate.Proofs.Decimal.Value
import LedgerGate.Fraction

/-!
# The value of a fraction

A fraction stands for a rational number (`Fraction.value`). An operation that gives a fraction
gives that of the exact result, and the sign of a fraction is that of its value.
-/

namespace LedgerGate.Fraction

/-- The rational number that a fraction stands for. -/
def value (q : Fraction) : ℚ := q.num / q.den

theorem den_cast_pos (q : Fraction) : (0 : ℚ) < q.den := Int.cast_pos.mpr q.den_pos

theorem den_cast_ne_zero (q : Fraction) : (q.den : ℚ) ≠ 0 := q.den_cast_pos.ne'

@[simp]
theorem value_zero : value 0 = 0 := by
  show ((0 : Int) : ℚ) / ((1 : Int) : ℚ) = 0
  simp

@[simp]
theorem value_one : value 1 = 1 := by
  show ((1 : Int) : ℚ) / ((1 : Int) : ℚ) = 1
  simp

@[simp]
theorem value_minusOne : value minusOne = -1 := by
  show ((-1 : Int) : ℚ) / ((1 : Int) : ℚ) = -1
  simp

/-! ## Signs -/

theorem value_pos_iff {q : Fraction} : 0 < q.value ↔ 0 < q.num := by
  rw [value, div_pos_iff_of_pos_right q.den_cast_pos, Int.cast_pos]

theorem value_neg_iff {q : Fraction} : q.value < 0 ↔ q.num < 0 := by
  rw [value, div_lt_iff₀ q.den_cast_pos, zero_mul, Int.cast_lt_zero]

theorem value_eq_zero_iff {q : Fraction} : q.value = 0 ↔ q.num = 0 := by
  rw [value, div_eq_zero_iff, or_iff_left q.den_cast_ne_zero, Int.cast_eq_zero]

theorem isZero_iff {q : Fraction} : q.isZero = true ↔ q.value = 0 := by
  rw [value_eq_zero_iff, isZero, beq_iff_eq]

theorem orderZero_eq_lt_iff {q : Fraction} : q.orderZero = .lt ↔ q.value < 0 := by
  rw [value_neg_iff, orderZero, Std.compare_eq_lt]

theorem orderZero_eq_eq_iff {q : Fraction} : q.orderZero = .eq ↔ q.value = 0 := by
  rw [value_eq_zero_iff, orderZero, Std.LawfulEqCmp.compare_eq_iff_eq]

theorem orderZero_eq_gt_iff {q : Fraction} : q.orderZero = .gt ↔ 0 < q.value := by
  rw [value_pos_iff, orderZero, Std.compare_eq_gt]

/-- Two fractions with one value are the same. -/
theorem eq_of_value_eq {a b : Fraction} (h : a.value = b.value) : a = b := by
  obtain ⟨hnum, hden⟩ := Rat.div_int_inj a.den_pos b.den_pos a.reduced b.reduced h
  exact ext hnum hden

/-! ## Operations -/

theorem value_reduce? {n d : Int} {q : Fraction} (h : reduce? n d = some q) :
    q.value = n / d := by
  unfold reduce? at h
  split at h
  · next hd =>
    have hg : ((Int.gcd n d : Int) : ℚ) ≠ 0 := Int.cast_ne_zero.mpr (gcd_pos (n := n) hd.1).ne'
    obtain rfl := Option.some.inj h
    show ((n / Int.gcd n d : Int) : ℚ) / ((d / Int.gcd n d : Int) : ℚ) = _
    rw [Int.cast_div (Int.gcd_dvd_left ..) hg, Int.cast_div (Int.gcd_dvd_right ..) hg]
    exact div_div_div_cancel_right₀ hg _ _
  · cases h

theorem value_of? {n d : Int} {q : Fraction} (h : of? n d = some q) : q.value = n / d := by
  unfold of? at h
  split at h
  · rw [value_reduce? h, Int.cast_neg, Int.cast_neg, neg_div_neg_eq]
  · exact value_reduce? h

theorem value_ofDecimal? {d : Decimal} {q : Fraction} (h : ofDecimal? d = some q) :
    q.value = d.value := by
  rw [value_of? h, Decimal.value, Int.cast_natCast]

theorem value_add? {a b c : Fraction} (h : a.add? b = some c) : c.value = a.value + b.value := by
  have hg : (Int.gcd a.den b.den : Int) ≠ 0 := (gcd_pos b.den_pos).ne'
  obtain ⟨k, hk⟩ : (Int.gcd a.den b.den : Int) ∣ a.den := Int.gcd_dvd_left ..
  obtain ⟨m, hm⟩ : (Int.gcd a.den b.den : Int) ∣ b.den := Int.gcd_dvd_right ..
  unfold add? at h
  simp only [Option.bind_eq_bind, Option.bind_eq_some_iff, Int128.checked_eq_some_iff] at h
  obtain ⟨x, ⟨-, rfl⟩, y, ⟨-, rfl⟩, d, ⟨-, rfl⟩, n, ⟨-, rfl⟩, h⟩ := h
  have hka : a.den / Int.gcd a.den b.den = k := Int.ediv_eq_of_eq_mul_right hg hk
  have hmb : b.den / Int.gcd a.den b.den = m := Int.ediv_eq_of_eq_mul_right hg hm
  have ha := a.den_cast_ne_zero
  have hb := b.den_cast_ne_zero
  rw [value_of? h, hka, hmb, value, value]
  generalize (Int.gcd a.den b.den : Int) = g at hk hm
  rw [hk, Int.cast_mul, mul_ne_zero_iff] at ha
  rw [hm, Int.cast_mul, mul_ne_zero_iff] at hb
  rw [hk, hm]
  obtain ⟨hg', hk'⟩ := ha
  obtain ⟨-, hm'⟩ := hb
  push_cast
  field_simp

theorem value_mul? {a b c : Fraction} (h : a.mul? b = some c) : c.value = a.value * b.value := by
  have hg : ((Int.gcd a.num b.den : Int) : ℚ) ≠ 0 := Int.cast_ne_zero.mpr (gcd_pos b.den_pos).ne'
  have hg' : ((Int.gcd b.num a.den : Int) : ℚ) ≠ 0 := Int.cast_ne_zero.mpr (gcd_pos a.den_pos).ne'
  unfold mul? at h
  simp only [Option.bind_eq_bind, Option.bind_eq_some_iff, Int128.checked_eq_some_iff] at h
  obtain ⟨n, ⟨-, rfl⟩, d, ⟨-, rfl⟩, h⟩ := h
  have ha := a.den_cast_ne_zero
  have hb := b.den_cast_ne_zero
  rw [value_of? h, value, value, Int.cast_mul, Int.cast_mul,
    Int.cast_div (Int.gcd_dvd_left ..) hg, Int.cast_div (Int.gcd_dvd_left ..) hg',
    Int.cast_div (Int.gcd_dvd_right ..) hg', Int.cast_div (Int.gcd_dvd_right ..) hg]
  field_simp

theorem value_neg? {a b : Fraction} (h : a.neg? = some b) : b.value = -a.value := by
  unfold neg? at h
  split at h
  · obtain rfl := Option.some.inj h
    rw [value, value, ← neg_div, ← Int.cast_neg]
  · cases h

theorem value_recip? {a b : Fraction} (h : a.recip? = some b) : b.value = a.value⁻¹ := by
  rw [value_of? h, value, inv_div]

/-- A fraction that has a reciprocal is not zero. -/
theorem value_ne_zero_of_recip? {a b : Fraction} (h : a.recip? = some b) : a.value ≠ 0 := by
  rw [Ne, value_eq_zero_iff]
  intro hz
  rw [recip?, hz] at h
  simp [of?, reduce?] at h

theorem value_abs? {a b : Fraction} (h : a.abs? = some b) : b.value = |a.value| := by
  unfold abs? at h
  split at h
  · next hneg => rw [value_neg? h, abs_of_neg (value_neg_iff.mpr hneg)]
  · next hneg =>
    obtain rfl := Option.some.inj h
    exact (abs_of_nonneg (not_lt.mp fun hlt => hneg (value_neg_iff.mp hlt))).symm

end LedgerGate.Fraction

import LedgerGate.Proofs.Decimal.Text
import LedgerGate.Proofs.Decimal.Value

/-!
# Decimal arithmetic

An operation on decimals is exact or fails (`Decimal.exact_or_fails`). A sum fails only where the
range leaves no choice: an operand, or the sum, does not fit the word at the scale of the result
(`Decimal.add_eq_ok_iff`). Apart from the results that are checked, no number on the way leaves
its range, also not in the loop that takes zeros off a fraction (`Decimal.Pass`).
-/

namespace LedgerGate.Int128

/-! ## Numbers that stay in the word -/

theorem Fits.tdiv {m : Int} (h : Fits m) {k : Int} (hk : 0 < k) : Fits (m.tdiv k) := by
  refine h.toward_zero (fun h0 => ?_) (fun h0 => ?_)
  · exact ⟨Int.tdiv_nonneg h0 hk.le, Int.tdiv_le_self k h0⟩
  · have hneg : m.tdiv k = -((-m).tdiv k) := by rw [Int.neg_tdiv, neg_neg]
    have hge := Int.tdiv_nonneg (a := -m) (by omega) hk.le
    have hle := Int.tdiv_le_self (a := -m) k (by omega)
    omega

theorem Fits.tmod {m : Int} (h : Fits m) (k : Int) : Fits (m.tmod k) := by
  have hsize : (m.tmod k).natAbs ≤ m.natAbs := by
    rw [Int.natAbs_tmod]
    exact Nat.mod_le _ _
  refine h.toward_zero (fun h0 => ?_) (fun h0 => ?_)
  · have := Int.tmod_nonneg k h0
    omega
  · have hneg : m.tmod k = -((-m).tmod k) := by rw [Int.neg_tmod, neg_neg]
    have := Int.tmod_nonneg (a := -m) k (by omega)
    omega

/-- Every power of ten that a scale can ask for is in the word. -/
theorem fits_tenTo {n : Nat} (h : n ≤ 38) : Fits (tenTo n) := by
  have hle : tenTo n ≤ tenTo 38 := Decimal.tenTo_le_tenTo h
  have hlt : (tenTo 38 : Int) < bound := by decide
  unfold Fits
  unfold bound at *
  omega

end LedgerGate.Int128

namespace LedgerGate.Decimal

open Int128 (Fits)
open Relation (ReflTransGen)

/-! ## When an operation gives a result -/

theorem orOverflow_eq_ok_iff {operation : String} {o : Option Decimal} {c : Decimal} :
    orOverflow operation o = .ok c ↔ o = some c := by
  cases o <;> simp [orOverflow]

theorem commonScale_comm (a b : Decimal) : commonScale a b = commonScale b a := Nat.max_comm _ _

theorem commonScale_le (a b : Decimal) : commonScale a b ≤ 38 :=
  Nat.max_le.mpr ⟨a.scale_le, b.scale_le⟩

/-- A sum is given where both operands fit at the larger scale, and it is their sum there. -/
theorem add_eq_ok_iff {a b c : Decimal} :
    a.add b = .ok c ↔ Fits (a.mantissaAt (commonScale a b)) ∧
      Fits (b.mantissaAt (commonScale a b)) ∧
        c.mantissa = a.mantissaAt (commonScale a b) + b.mantissaAt (commonScale a b) ∧
          c.scale = commonScale a b := by
  rw [add, orOverflow_eq_ok_iff]
  simp only [Option.bind_eq_bind, Option.bind_eq_some_iff, Int128.checked_eq_some_iff,
    make?_eq_some_iff]
  constructor
  · rintro ⟨x, ⟨hx, rfl⟩, y, ⟨hy, rfl⟩, hmantissa, hscale⟩
    exact ⟨hx, hy, hmantissa, hscale⟩
  · rintro ⟨hx, hy, hmantissa, hscale⟩
    exact ⟨_, ⟨hx, rfl⟩, _, ⟨hy, rfl⟩, hmantissa, hscale⟩

/-- A sum fails only where an operand, or the sum itself, does not fit at the larger scale. -/
theorem add_eq_error_iff {a b : Decimal} :
    (∃ e, a.add b = .error e) ↔ ¬ Fits (a.mantissaAt (commonScale a b)) ∨
      ¬ Fits (b.mantissaAt (commonScale a b)) ∨
        ¬ Fits (a.mantissaAt (commonScale a b) + b.mantissaAt (commonScale a b)) := by
  constructor
  · rintro ⟨e, he⟩
    by_contra hfits
    simp only [not_or, not_not] at hfits
    obtain ⟨hx, hy, hsum⟩ := hfits
    have hok : a.add b = .ok ⟨_, _, hsum, commonScale_le a b⟩ :=
      add_eq_ok_iff.mpr ⟨hx, hy, rfl, rfl⟩
    rw [he] at hok
    cases hok
  · intro h
    cases hadd : a.add b with
    | error e => exact ⟨e, rfl⟩
    | ok c =>
      obtain ⟨hx, hy, hmantissa, -⟩ := add_eq_ok_iff.mp hadd
      have hsum := hmantissa ▸ c.mantissa_fits
      simp [hx, hy, hsum] at h

theorem neg_eq_ok_iff {a c : Decimal} :
    a.neg = .ok c ↔ c.mantissa = -a.mantissa ∧ c.scale = a.scale := by
  rw [neg, orOverflow_eq_ok_iff, make?_eq_some_iff]

theorem mul_eq_ok_iff {a b c : Decimal} :
    a.mul b = .ok c ↔ c.mantissa = a.normalize.mantissa * b.normalize.mantissa ∧
      c.scale = a.normalize.scale + b.normalize.scale := by
  rw [mul, orOverflow_eq_ok_iff, make?_eq_some_iff]

theorem sub_eq_ok_iff {a b c : Decimal} :
    a.sub b = .ok c ↔ ∃ n, b.neg = .ok n ∧ a.add n = .ok c := by
  rw [sub]
  cases b.neg <;> simp

/-! ## Results -/

/-- Whether a result, where there is one, has a value and a scale, and the scale is one that
decimals may have. -/
def Gives (r : Except Fault Decimal) (x : ℚ) (s : Nat) : Prop :=
  ∀ c, r = .ok c → c.value = x ∧ c.scale = s ∧ s ≤ maxPrecision

theorem gives_add (a b : Decimal) : Gives (a.add b) (a.value + b.value) (commonScale a b) := by
  intro c h
  exact ⟨value_add h, (add_eq_ok_iff.mp h).2.2.2, commonScale_le a b⟩

theorem gives_neg (a : Decimal) : Gives a.neg (-a.value) a.scale := by
  intro c h
  exact ⟨value_neg h, (neg_eq_ok_iff.mp h).2, a.scale_le⟩

theorem gives_sub (a b : Decimal) : Gives (a.sub b) (a.value - b.value) (commonScale a b) := by
  intro c h
  obtain ⟨n, hn, hadd⟩ := sub_eq_ok_iff.mp h
  have hscale : commonScale a n = commonScale a b := by
    rw [commonScale, commonScale, (neg_eq_ok_iff.mp hn).2]
  exact ⟨value_sub h, hscale ▸ (add_eq_ok_iff.mp hadd).2.2.2, commonScale_le a b⟩

theorem gives_mul (a b : Decimal) :
    Gives (a.mul b) (a.value * b.value) (a.normalize.scale + b.normalize.scale) := by
  intro c h
  have hscale := (mul_eq_ok_iff.mp h).2
  exact ⟨value_mul h, hscale, hscale ▸ c.scale_le⟩

theorem gives_abs (a : Decimal) : Gives a.abs |a.value| a.scale := by
  intro c h
  rw [abs] at h
  by_cases hsign : a.isNegative = true
  · rw [if_pos hsign] at h
    have hneg : a.value < 0 := by
      rw [← not_le, value_nonneg_iff, hsign]
      decide
    rw [abs_of_neg hneg]
    exact gives_neg a c h
  · rw [if_neg hsign] at h
    have hnonneg : 0 ≤ a.value := value_nonneg_iff.mpr (Bool.not_eq_true _ ▸ hsign)
    cases h
    exact ⟨(abs_of_nonneg hnonneg).symm, rfl, a.scale_le⟩

/-! ## The order of operands -/

protected theorem add_comm (a b : Decimal) : a.add b = b.add a := by
  rw [add, add, commonScale_comm b a]
  congr 1
  cases Int128.checked (a.mantissaAt (commonScale a b)) <;>
    cases Int128.checked (b.mantissaAt (commonScale a b)) <;> simp [Int.add_comm]

protected theorem mul_comm (a b : Decimal) : a.mul b = b.mul a := by
  rw [mul, mul, Int.mul_comm, Nat.add_comm]

/-! ## The loop that takes zeros off a fraction -/

/-- One pass of the loop over a mantissa and a scale. It is made while there is a digit after the
point and the remainder by ten is zero; the division is toward zero. -/
def Pass (x y : Int × Nat) : Prop :=
  0 < x.2 ∧ x.1.tmod 10 = 0 ∧ y = (x.1.tdiv 10, x.2 - 1)

/-- Whether a mantissa and a scale are in their ranges. -/
def InRange (x : Int × Nat) : Prop := Fits x.1 ∧ x.2 ≤ 38

theorem InRange.pass {x y : Int × Nat} (hx : InRange x) (h : Pass x y) : InRange y := by
  obtain ⟨-, -, rfl⟩ := h
  exact ⟨hx.1.tdiv (by decide), Nat.le_trans (Nat.sub_le _ _) hx.2⟩

theorem InRange.passes {x y : Int × Nat} (hx : InRange x) (h : ReflTransGen Pass x y) :
    InRange y := by
  induction h with
  | refl => exact hx
  | tail _ hpass ih => exact ih.pass hpass

/-- The loop comes to the stripped mantissa and scale. -/
theorem passes_stripZeros (m : Int) (s : Nat) : ReflTransGen Pass (m, s) (stripZeros m s) := by
  induction s generalizing m with
  | zero => exact .refl
  | succ s ih =>
    rw [stripZeros]
    by_cases h : m % 10 = 0
    · have hdvd : (10 : Int) ∣ m := Int.dvd_of_emod_eq_zero h
      have hpass : Pass (m, s + 1) (m / 10, s) :=
        ⟨Nat.succ_pos s, Int.tmod_eq_zero_of_dvd hdvd, by
          rw [Int.tdiv_eq_ediv_of_dvd hdvd, Nat.add_sub_cancel]⟩
      rw [if_pos h]
      exact .head hpass (ih _)
    · rw [if_neg h]

/-- And there it ends. -/
theorem not_pass_stripZeros (m : Int) (s : Nat) (x : Int × Nat) : ¬ Pass (stripZeros m s) x := by
  rintro ⟨hscale, hremainder, -⟩
  rcases isStripped_stripZeros m s with hzero | hdigit
  · omega
  · exact hdigit (Int.emod_eq_zero_of_dvd (Int.dvd_of_tmod_eq_zero hremainder))

/-- Whether the loop that normalizes a decimal comes to its normal form and ends there, and all
that it works out on the way is in range: the mantissas and scales, and the remainders and
quotients. -/
structure StripsInRange (d : Decimal) : Prop where
  reaches : ReflTransGen Pass (d.mantissa, d.scale) (d.normalize.mantissa, d.normalize.scale)
  ends : ∀ x, ¬ Pass (d.normalize.mantissa, d.normalize.scale) x
  inRange : ∀ x, ReflTransGen Pass (d.mantissa, d.scale) x →
    InRange x ∧ Fits (x.1.tmod 10) ∧ Fits (x.1.tdiv 10)

theorem stripsInRange (d : Decimal) : d.StripsInRange := by
  constructor
  · exact passes_stripZeros d.mantissa d.scale
  · exact not_pass_stripZeros d.mantissa d.scale
  · intro x hx
    have hrange : InRange x := InRange.passes ⟨d.mantissa_fits, d.scale_le⟩ hx
    exact ⟨hrange, hrange.1.tmod 10, hrange.1.tdiv (by decide)⟩

/-! ## Exact or failing -/

/-- Whether all that the operations on two decimals work out without a check is in range: the
differences of scales and the powers of ten that bring both to the larger scale, the two normal
forms, and the sum of their scales. -/
structure WorksInRange (a b : Decimal) : Prop where
  differences : a.scale ≤ commonScale a b ∧ b.scale ≤ commonScale a b
  powers : ∀ n ≤ commonScale a b, Fits (tenTo n)
  left : a.StripsInRange
  right : b.StripsInRange
  scales : a.normalize.scale + b.normalize.scale < UInt32.size

theorem worksInRange (a b : Decimal) : WorksInRange a b := by
  constructor
  · exact ⟨Nat.le_max_left _ _, Nat.le_max_right _ _⟩
  · intro n hn
    exact Int128.fits_tenTo (Nat.le_trans hn (commonScale_le a b))
  · exact stripsInRange a
  · exact stripsInRange b
  · have ha := a.normalize.scale_le
    have hb := b.normalize.scale_le
    have hsize : UInt32.size = 4294967296 := rfl
    omega

/-- A result of decimal arithmetic has exactly the value of the operation, and normal forms keep
the value. Nothing leaves its range unnoticed. The order of two operands does not matter, also not
for failing, and a sum fails only where the range leaves no choice. -/
theorem exact_or_fails (a b : Decimal) :
    Gives (a.add b) (a.value + b.value) (commonScale a b) ∧
      Gives (a.sub b) (a.value - b.value) (commonScale a b) ∧
      Gives a.neg (-a.value) a.scale ∧
      Gives a.abs |a.value| a.scale ∧
      Gives (a.mul b) (a.value * b.value) (a.normalize.scale + b.normalize.scale) ∧
      a.normalize.value = a.value ∧
      WorksInRange a b ∧
      a.add b = b.add a ∧ a.mul b = b.mul a ∧
      ((∃ e, a.add b = .error e) ↔ ¬ Fits (a.mantissaAt (commonScale a b)) ∨
        ¬ Fits (b.mantissaAt (commonScale a b)) ∨
          ¬ Fits (a.mantissaAt (commonScale a b) + b.mantissaAt (commonScale a b))) :=
  ⟨gives_add a b, gives_sub a b, gives_neg a, gives_abs a, gives_mul a b, value_normalize a,
    worksInRange a b, Decimal.add_comm a b, Decimal.mul_comm a b, add_eq_error_iff⟩

end LedgerGate.Decimal

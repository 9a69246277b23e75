/-!
# Signed 128-bit range

Mantissas, numerators and denominators are whole numbers that must fit a signed
128-bit word. Arithmetic is done on `Int` and every result passes through
`Int128.checked`, so a value that leaves the word is refused and never wraps.
-/

namespace LedgerGate.Int128

/-- One more than the largest value of the word. -/
def bound : Int := 170141183460469231731687303715884105728

/-- The values of a signed 128-bit word. -/
def Fits (n : Int) : Prop := -bound ≤ n ∧ n < bound

instance (n : Int) : Decidable (Fits n) := inferInstanceAs (Decidable (_ ∧ _))

/-- The number itself when it fits the word. -/
def checked (n : Int) : Option Int := if Fits n then some n else none

theorem checked_eq_some_iff {n m : Int} : checked n = some m ↔ Fits n ∧ n = m := by
  unfold checked
  split <;> simp_all

theorem fits_zero : Fits 0 := by decide

/-- A number no larger in size than one that fits, fits as well unless it is the
positive counterpart of the least value. -/
theorem Fits.of_natAbs_lt {n : Int} (h : (n.natAbs : Int) < bound) : Fits n := by
  unfold Fits
  omega

/-- Moving toward zero stays in the word. -/
theorem Fits.toward_zero {n m : Int} (hn : Fits n) (hs : 0 ≤ n → 0 ≤ m ∧ m ≤ n)
    (hn' : n < 0 → n ≤ m ∧ m ≤ 0) : Fits m := by
  unfold Fits at *
  rcases Int.lt_or_le n 0 with h | h
  · have := hn' h; unfold bound at *; omega
  · have := hs h; unfold bound at *; omega

end LedgerGate.Int128

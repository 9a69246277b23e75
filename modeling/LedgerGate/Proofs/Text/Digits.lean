import Mathlib.Tactic.Common

/-!
# Digits of a number

The decimal digits of a number as the writers of numerals put them: all are digits, the first
is a zero only for the number zero, and how many there are is decided by powers of ten.
-/

namespace LedgerGate.Text

theorem allDigits_toDigits (n : Nat) : (Nat.toDigits 10 n).all Char.isDigit = true :=
  List.all_eq_true.mpr fun _ hc => Nat.isDigit_of_mem_toDigits (by decide) (by decide) hc

theorem eq_zero_of_head_toDigits {n : Nat} (h : (Nat.toDigits 10 n).head? = some '0') : n = 0 := by
  induction n using Nat.strongRecOn with
  | ind n ih =>
    rw [Nat.toDigits_eq_if (by decide)] at h
    split at h
    · next hlt =>
      have : ∀ m < 10, [m.digitChar].head? = some '0' → m = 0 := by decide
      exact this n hlt h
    · next hge =>
      obtain ⟨c, r, hcr⟩ := List.exists_cons_of_ne_nil (Nat.toDigits_ne_nil (n := n / 10) (b := 10))
      have := ih (n / 10) (by omega) (by rwa [hcr] at h ⊢)
      omega

/-- A number of more than one digit does not begin with a zero. -/
theorem no_leading_zero (n : Nat) :
    ¬ (1 < (Nat.toDigits 10 n).length ∧ (Nat.toDigits 10 n).head? = some '0') := by
  rintro ⟨hlen, hhead⟩
  obtain rfl := eq_zero_of_head_toDigits hhead
  simp at hlen

/-- Of the digits of a number other than zero none is lost when leading zeros are. -/
theorem dropWhile_toDigits {n : Nat} (hn : n ≠ 0) :
    (Nat.toDigits 10 n).dropWhile (· = '0') = Nat.toDigits 10 n := by
  cases h : Nat.toDigits 10 n with
  | nil => rfl
  | cons c r =>
    rw [List.dropWhile_cons_of_neg]
    intro hc
    exact hn (eq_zero_of_head_toDigits (by rw [h, of_decide_eq_true hc]; rfl))

end LedgerGate.Text

/-!
# Powers of two and ten

Scales of decimals and exponents of floating-point numbers are whole powers. They are given
by `Nat.pow`, which is computed at once, also for large exponents.
-/

namespace LedgerGate

/-- A power of two. -/
def twoTo (n : Nat) : Nat := Nat.pow 2 n

/-- A power of ten. -/
def tenTo (n : Nat) : Nat := Nat.pow 10 n

@[simp]
theorem tenTo_zero : tenTo 0 = 1 := rfl

theorem tenTo_succ (n : Nat) : tenTo (n + 1) = tenTo n * 10 := rfl

theorem tenTo_pos (n : Nat) : 0 < tenTo n := by
  induction n with
  | zero => decide
  | succ n ih => rw [tenTo_succ]; omega

theorem tenTo_add (m n : Nat) : tenTo (m + n) = tenTo m * tenTo n := by
  induction n with
  | zero => simp
  | succ n ih => rw [← Nat.add_assoc, tenTo_succ, tenTo_succ, ih, Nat.mul_assoc]

end LedgerGate

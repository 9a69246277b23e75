import LedgerGate.Proofs.Solver.Linear
import LedgerGate.Solver.Constraint

/-!
# What constraints say

Given a value for each variable, a constraint holds or not (`Constraint.Holds`), and a list of
constraints is solved when all of them hold (`Solves`).
-/

namespace LedgerGate

/-- Whether a number is related to zero. -/
def Relation.Holds (x : ℚ) : Relation → Prop
  | .eq => x = 0
  | .ne => x ≠ 0
  | .le => x ≤ 0
  | .lt => x < 0

/-- Whether a relation is that of an inequality. -/
def Relation.IsInequality (r : Relation) : Prop := r = .le ∨ r = .lt

theorem Relation.isInequality_iff {r : Relation} : r.IsInequality ↔ r ≠ .eq ∧ r ≠ .ne := by
  cases r <;> simp [IsInequality]

/-- A positive multiple is related to zero in the same way. -/
theorem Relation.holds_mul_iff {x k : ℚ} (hk : 0 < k) (r : Relation) :
    r.Holds (x * k) ↔ r.Holds x := by
  cases r with
  | eq => exact mul_eq_zero_iff_right hk.ne'
  | ne => exact not_congr (mul_eq_zero_iff_right hk.ne')
  | le => simpa [Holds] using mul_le_mul_iff_of_pos_right (b := x) (c := 0) hk
  | lt => simpa [Holds] using mul_lt_mul_iff_of_pos_right (b := x) (c := 0) hk

namespace Constraint

/-- Whether a constraint holds, given the values of the variables. -/
def Holds (ρ : Values) (c : Constraint) : Prop := c.relation.Holds (c.linear.value ρ)

theorem holdsTrivially_iff {c : Constraint} {ρ : Values} (h : c.linear.isConstant = true) :
    c.holdsTrivially = true ↔ c.Holds ρ := by
  rw [Holds, Linear.value_of_isConstant h, holdsTrivially]
  cases c.relation with
  | eq => rw [beq_iff_eq, Fraction.orderZero_eq_eq_iff]; rfl
  | ne => rw [bne_iff_ne, Ne, Fraction.orderZero_eq_eq_iff]; rfl
  | le =>
    rw [bne_iff_ne, Ne, Fraction.orderZero_eq_gt_iff]
    exact not_lt
  | lt => rw [beq_iff_eq, Fraction.orderZero_eq_lt_iff]; rfl

theorem holds_pin? {name : String} {q : Fraction} {c : Constraint} {ρ : Values}
    (h : pin? name q = some c) : c.Holds ρ ↔ ρ name = q.value := by
  obtain ⟨l, hl, rfl⟩ := Option.map_eq_some_iff.mp h
  show l.value ρ = 0 ↔ _
  rw [Linear.value_sub? hl, Linear.value_ofVariable, Linear.value_ofFraction, sub_eq_zero]

end Constraint

/-- Whether all constraints hold, given the values of the variables. -/
def Solves (ρ : Values) (cs : List Constraint) : Prop := ∀ c ∈ cs, c.Holds ρ

/-- Whether a variable occurs in one of the constraints. -/
def Mentions (cs : List Constraint) (name : String) : Prop :=
  ∃ c ∈ cs, name ∈ c.linear.variableNames

variable {ρ : Values} {cs ds : List Constraint} {c : Constraint}

theorem solves_nil : Solves ρ [] := fun _ h => absurd h List.not_mem_nil

theorem solves_cons : Solves ρ (c :: cs) ↔ c.Holds ρ ∧ Solves ρ cs := List.forall_mem_cons

theorem solves_append : Solves ρ (cs ++ ds) ↔ Solves ρ cs ∧ Solves ρ ds := List.forall_mem_append

end LedgerGate

import LedgerGate.Intent.Basic
import LedgerGate.Proofs.Intent.Meaning

/-!
# The equalities of an intent

A predicate that sets a variable and a term equal, in either orientation, says what the variable
is. It assigns the balance after the transition that the variable names (`Predicate.Assigns`), or
gives the variable the literal that the term is (`Intent.Binds`).
-/

namespace LedgerGate

/-! ## Variables that name no balance -/

namespace BalanceName

/-- Whether a variable names no balance. -/
def IsPlain (name : String) : Prop :=
  ∀ account, IsAccount account → name ≠ before account ∧ name ≠ afterwards account

theorem ofVariable?_eq_none_iff {name : String} : ofVariable? name = none ↔ IsPlain name := by
  rw [Option.eq_none_iff_forall_ne_some]
  constructor
  · intro h account haccount
    exact ⟨fun hname => h ⟨account, false⟩ (ofVariable?_eq_some_iff.mpr ⟨haccount, hname⟩),
      fun hname => h ⟨account, true⟩ (ofVariable?_eq_some_iff.mpr ⟨haccount, hname⟩)⟩
  · rintro h ⟨account, after⟩ hname
    obtain ⟨haccount, hname⟩ := ofVariable?_eq_some_iff.mp hname
    obtain ⟨hbefore, hafter⟩ := h account haccount
    cases after with
    | false => exact hbefore hname
    | true => exact hafter hname

theorem isBalance_eq_false_iff {name : String} : isBalance name = false ↔ IsPlain name := by
  rw [isBalance, Option.isSome_eq_false_iff, Option.isNone_iff_eq_none, ofVariable?_eq_none_iff]

end BalanceName

/-! ## Balances as values -/

/-- Balances as values of the variables that name them before a transition, with values for all
other variables. -/
def Balances.asValues (b : Balances) (others : Values) : Values := fun name =>
  match BalanceName.beforeAccount? name with
  | some account => (b.of account).value
  | none => others name

theorem Balances.asValues_before {b : Balances} {others : Values} {name account : String}
    (h : BalanceName.beforeAccount? name = some account) :
    b.asValues others name = (b.of account).value := by
  simp only [asValues, h]

theorem Balances.asValues_other {b : Balances} {others : Values} {name : String}
    (h : BalanceName.beforeAccount? name = none) : b.asValues others name = others name := by
  simp only [asValues, h]

/-! ## Predicates that set a variable equal to a term -/

namespace Predicate

variable {p : Predicate} {account : String} {term : Expr}

/-- Whether a predicate sets a variable and a term equal, in either orientation. -/
def Equates (p : Predicate) (name : String) (term : Expr) : Prop :=
  p.op = .eq ∧ (p.lhs = .var name ∧ p.rhs = term ∨ p.lhs = term ∧ p.rhs = .var name)

/-- Whether a predicate sets the balance of an account after the transition and a term equal. -/
def Assigns (p : Predicate) (account : String) (term : Expr) : Prop :=
  BalanceName.IsAccount account ∧ p.Equates (BalanceName.afterwards account) term

theorem assigns_of_assignment? (h : p.assignment? = some (account, term)) :
    p.Assigns account term := by
  obtain ⟨hnamed, hequates⟩ := assignment?_eq_some h
  rw [BalanceName.afterAccount?_eq_some_iff, BalanceName.ofVariable?_eq_some_iff] at hnamed
  exact ⟨hnamed.1, hequates⟩

/-- What a predicate assigns is its assignment, unless it sets two balances after the transition
equal and so assigns another one. -/
theorem assignment?_of_assigns (h : p.Assigns account term) :
    p.assignment? = some (account, term) ∨
      ∃ other, p.assignment? = some (other, .var (BalanceName.afterwards account)) := by
  obtain ⟨haccount, hop, hsides⟩ := h
  have hnamed : assignedAccount? (.var (BalanceName.afterwards account)) = some account := by
    rw [assignedAccount?, BalanceName.afterAccount?_eq_some_iff,
      BalanceName.ofVariable?_eq_some_iff]
    exact ⟨haccount, rfl⟩
  unfold assignment?
  rw [if_pos hop]
  obtain ⟨hl, rfl⟩ | ⟨rfl, hr⟩ := hsides
  · rw [hl, hnamed]
    exact .inl rfl
  · rw [hr, hnamed]
    cases hleft : assignedAccount? p.lhs with
    | none => exact .inl rfl
    | some other => exact .inr ⟨other, rfl⟩

end Predicate

namespace Intent

/-- Whether a predicate gives a variable the value of a literal. Balances, and variables from
outside, get no value this way. -/
def Binds (i : Intent) (p : Predicate) (name text : String) : Prop :=
  p.Equates name (.lit text) ∧ BalanceName.IsPlain name ∧ i.isExternal name = false

/-- Whether a variable has a value that is given: it names a balance before the transition, or a
predicate binds it. -/
def IsGiven (i : Intent) (name : String) : Prop :=
  (∃ account, BalanceName.IsAccount account ∧ name = BalanceName.before account) ∨
    ∃ p ∈ i.predicates, ∃ text, i.Binds p name text

/-- Whether values are those that are given: the balances before the transition are the ones of a
snapshot, and a variable has the value of each literal that a predicate gives it. -/
structure AreGiven (i : Intent) (balances : Balances) (precision : Nat) (ρ : Values) :
    Prop where
  before : ∀ account, BalanceName.IsAccount account →
    ρ (BalanceName.before account) = (balances.of account).value
  literal : ∀ p ∈ i.predicates, ∀ name text, i.Binds p name text →
    ∃ v, Decimal.parse text precision = .ok v ∧ ρ name = v.value

/-- Whether one predicate across the transition assigns an account a term, and no other one assigns
that account anything. -/
def AssignsOnce (i : Intent) (account : String) (term : Expr) : Prop :=
  ∃ before p after, i.verify = before ++ p :: after ∧ p.Assigns account term ∧
    ∀ q ∈ before ++ after, ∀ other, ¬ q.Assigns account other

end Intent
end LedgerGate

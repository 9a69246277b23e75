import LedgerGate.Proofs.PostConditions

/-!
# The transition of an approved intent

An approved intent has values for all its variables that make every predicate true, in which the
balances before the transition are those of the ledger, and those after it are the ones that its
delta writes (`Service.exists_transition`). If logic was called they come from its model, and
otherwise from the delta itself.
-/

namespace LedgerGate

/-! ## Values of a transition -/

/-- The balances that a delta writes as values of the variables that name them after a
transition, with the bound values of other variables. -/
def Delta.asValues (δ : Delta) (bindings : Table Decimal) : Values := fun name =>
  match BalanceName.afterAccount? name with
  | some account => ((δ.changes.get? account).map fun c => c.after.value).getD 0
  | none => ((bindings.get? name).map Decimal.value).getD 0

theorem Delta.asValues_after {δ : Delta} {bindings : Table Decimal} {name account : String}
    {c : Change} (h : BalanceName.afterAccount? name = some account)
    (hc : δ.changes.get? account = some c) : δ.asValues bindings name = c.after.value := by
  simp only [asValues, h, hc]
  rfl

theorem Delta.asValues_bound {δ : Delta} {bindings : Table Decimal} {name : String} {v : Decimal}
    (h : BalanceName.afterAccount? name = none) (hv : bindings.get? name = some v) :
    δ.asValues bindings name = v.value := by
  simp only [asValues, h, hv]
  rfl

/-- Whether no balance before the transition that an intent mentions comes from outside. -/
def Intent.IsInside (i : Intent) : Prop :=
  ∀ p ∈ i.predicates, ∀ name ∈ p.occurrences, ∀ account,
    BalanceName.beforeAccount? name = some account → i.isExternal name = false

/-- Values of all variables that describe the transition of an intent from balances by a delta. -/
structure Intent.Describes (i : Intent) (precision : Nat) (b : Balances) (δ : Delta)
    (ρ : Values) : Prop where
  holds : ∀ p ∈ i.predicates, p.Holds precision ρ
  before : ∀ name account, BalanceName.beforeAccount? name = some account →
    ρ name = (b.of account).value
  after : ∀ account c, δ.changes.get? account = some c →
    ρ (BalanceName.afterwards account) = c.after.value

namespace Judge

variable {j : Judge} {i : Intent} {b : Balances} {δ : Delta}

/-- The variable of an assigned account names its balance after the transition. -/
theorem afterAccount?_afterwards {account : String} {term : Expr}
    (h : (account, term) ∈ i.assignments) :
    BalanceName.afterAccount? (BalanceName.afterwards account) = some account := by
  obtain ⟨p, -, hp⟩ := List.mem_filterMap.mp h
  exact (Predicate.assignment?_eq_some hp).1

/-- A model of an intent, with the balances of the snapshot for the variables that no predicate
mentions, describes its transition. -/
theorem describes_of_isModel {ρ : Values} (hmodel : Logic.IsModel (j.context i b) ρ)
    (hderive : Conservation.derive i b j.precision = .ok δ) (hinside : i.IsInside) :
    i.Describes j.precision b δ (b.asValues ρ) := by
  constructor
  · intro p hp
    refine (Predicate.holds_congr fun name hname => ?_).mp (hmodel.holds p hp)
    cases h : BalanceName.beforeAccount? name with
    | none => exact (Balances.asValues_other h).symm
    | some account =>
      rw [Balances.asValues_before h]
      exact hmodel.pinned p hp name hname account h (hinside p hp name hname account h)
  · intro name account h
    exact Balances.asValues_before h
  · intro account c hc
    obtain ⟨term, hmem⟩ := Conservation.assigned_of_derive hderive hc
    obtain ⟨p, hp, hassign⟩ := List.mem_filterMap.mp hmem
    obtain ⟨c', hc', hvalue⟩ := value_of_isModel hmodel hderive hmem fun name hname =>
      hinside p (List.mem_append_right _ hp) name
        (Predicate.mem_occurrences_of_assignment? hassign hname)
    obtain rfl := Option.some.inj (hc.symm.trans hc')
    rw [Balances.asValues_other
      (BalanceName.beforeAccount?_of_afterAccount? (afterAccount?_afterwards hmem))]
    exact hvalue

/-- The delta of an intent that consists of assignments describes its transition. -/
theorem describes_of_assignments (hderive : Conservation.derive i b j.precision = .ok δ)
    (hplain : ∀ p ∈ i.predicates, p ∈ i.verify ∧ ∃ account term,
      p.assignment? = some (account, term)) :
    ∃ ρ, i.Describes j.precision b δ ρ := by
  obtain ⟨bindings, -, hassign⟩ := Conservation.derive_ok hderive
  have hafter : ∀ account c, δ.changes.get? account = some c →
      b.asValues (δ.asValues bindings) (BalanceName.afterwards account) = c.after.value := by
    intro account c hc
    obtain ⟨term, hmem⟩ := Conservation.assigned_of_derive hderive hc
    have hnamed := afterAccount?_afterwards hmem
    rw [Balances.asValues_other (BalanceName.beforeAccount?_of_afterAccount? hnamed)]
    exact Delta.asValues_after hnamed hc
  refine ⟨b.asValues (δ.asValues bindings), fun p hp => ?_, fun name account h =>
    Balances.asValues_before h, hafter⟩
  obtain ⟨hp, account, term, hp'⟩ := hplain p hp
  obtain ⟨value, hvalue, hchange⟩ := hassign _ (List.mem_filterMap.mpr ⟨p, hp, hp'⟩)
  rw [Predicate.holds_assignment_iff hp', hafter account _ hchange]
  refine Conservation.value?_of_evaluate hvalue fun name _ => ⟨?_, ?_⟩
  · intro acc hacc
    exact Balances.asValues_before (BalanceName.beforeAccount?_eq_some_iff.mpr hacc)
  · intro hnone v hv
    have hbefore : BalanceName.beforeAccount? name = none := by
      rw [BalanceName.beforeAccount?, hnone]
    have hthen : BalanceName.afterAccount? name = none := by
      rw [BalanceName.afterAccount?, hnone]
    rw [Balances.asValues_other hbefore]
    exact Delta.asValues_bound hthen hv

/-- The transition of an approved intent can be described, if no balance before it comes from
outside. -/
theorem exists_describes (h : (j.decide course i b).1.approved = true) (hinside : i.IsInside) :
    ∃ δ, (j.decide course i b).1.delta = some δ ∧ δ.conserves = .ok () ∧
      ∃ ρ, i.Describes j.precision b δ ρ := by
  obtain ⟨hpoll, δ, hδ, hderive, hconserves⟩ := decide_approved h
  refine ⟨δ, hδ, hconserves, ?_⟩
  by_cases hlogic : VerifierId.logic ∈ j.activated i
  · obtain ⟨ρ, hmodel⟩ := Logic.exists_of_approve (approve_of_poll hpoll hlogic)
    exact ⟨_, describes_of_isModel hmodel hderive hinside⟩
  · refine describes_of_assignments hderive fun p hp => ?_
    have hguard : i.guard = [] := (plain_of_logic_notMem hlogic).1
    rw [Intent.predicates, hguard, List.nil_append] at hp
    exact ⟨hp, assignment_of_logic_notMem hlogic p hp⟩

end Judge

namespace Service

variable {s s₁ : Service} {i : Intent} {c : Consensus} {d d₁ : Disk} {host : Host}

/-- An approved intent in which no balance before the transition comes from outside carries a
delta that conserves, and there are values of all variables under which all its predicates are
true, the balances before the transition are those of the ledger, and the balances after it are
those of the delta. -/
theorem exists_transition (hverify : (s.verify i host).run d = ((s₁, c), d₁))
    (happroved : c.approved = true) (hinside : i.IsInside) :
    ∃ δ, c.delta = some δ ∧ δ.conserves = .ok () ∧
      ∃ ρ, i.Describes s.judge.precision s.layer.balances δ ρ := by
  have hv := returns_verify s i host d
  rw [hverify] at hv
  obtain ⟨-, rfl⟩ := hv
  exact Judge.exists_describes happroved hinside

/-- Two accounts exchange their balances. No verifier but conservation is called for this. -/
def exchange : Intent := .ofPredicates "exchange" []
  [⟨.var "alice.balance'", .eq, .var "bob.balance"⟩,
    ⟨.var "bob.balance'", .eq, .var "alice.balance"⟩]

open Ledger (foundedDisk twoState)

/-- An exchange, which logic does not look at, has a transition. -/
theorem exists_transition_exchange : usualJudge.activated exchange = [.conservation] ∧
    exchange.IsInside ∧
    ∃ s₁ c δ, (twoAccounts.verify exchange (.still 0)).run (foundedDisk twoState) =
        ((s₁, c), foundedDisk twoState) ∧
      c.approved = true ∧ c.delta = some δ ∧ δ.conserves = .ok () ∧
      ∃ ρ, exchange.Describes 28 twoState.balances δ ρ := by
  have hinside : exchange.IsInside := by
    intro p _ name _ account _
    rfl
  have happroved : (usualJudge.decide .calm exchange twoState.balances).1.approved = true := by
    decide +kernel
  refine ⟨by decide +kernel, hinside, ?_⟩
  obtain ⟨events, hverify⟩ := run_verify twoAccounts exchange (foundedDisk twoState) (.still 0) rfl
  obtain ⟨δ, hδ, hconserves, hρ⟩ := exists_transition hverify happroved hinside
  exact ⟨_, _, δ, hverify, happroved, hδ, hconserves, hρ⟩

end Service
end LedgerGate

import LedgerGate.Proofs.Transition

/-!
# Guards

Logic is called for every intent that has a guard, so an approved intent comes with values under
which its guards are true, and which agree with the ledger on the balances that do not come from
outside (`Judge.exists_of_guard`). A guard that no such values make true is rejected
(`Service.rejected_of_guard`).
-/

namespace LedgerGate

/-- Whether all variables of a predicate are balances before the transition, none of which comes
from outside. -/
def Predicate.ReadsLedger (i : Intent) (p : Predicate) : Prop :=
  ∀ name ∈ p.occurrences, i.isExternal name = false ∧
    (BalanceName.beforeAccount? name).isSome = true

/-- A predicate that reads the ledger says the same of all values that give its balances. -/
theorem Predicate.holds_asValues_iff {c : Context} {p : Predicate} {precision : Nat} {ρ : Values}
    (hreads : p.ReadsLedger c.intent) (hpinned : ∀ name ∈ p.occurrences, Logic.Pinned c ρ name)
    (others : Values) :
    p.Holds precision ρ ↔ p.Holds precision (c.balances.asValues others) := by
  apply Predicate.holds_congr
  intro name hname
  obtain ⟨hinside, hbefore⟩ := hreads name hname
  obtain ⟨account, haccount⟩ := Option.isSome_iff_exists.mp hbefore
  rw [Balances.asValues_before haccount]
  exact hpinned name hname account haccount hinside

namespace Judge

variable {j : Judge} {i : Intent} {b : Balances} {p : Predicate}

/-- A guard of an approved intent is true of some values in which the balances before the
transition that do not come from outside are those of the ledger. -/
theorem exists_of_guard (h : (j.decide course i b).1.approved = true) (hp : p ∈ i.guard) :
    ∃ ρ, p.Holds j.precision ρ ∧
      ∀ name ∈ p.occurrences, Logic.Pinned (j.context i b) ρ name := by
  obtain ⟨hpoll, -⟩ := decide_approved h
  have happrove := approve_of_poll hpoll (logic_mem_of_guard hp)
  obtain ⟨ρ, hmodel⟩ := Logic.exists_of_approve happrove
  have hmem : p ∈ i.predicates := List.mem_append_left _ hp
  exact ⟨ρ, hmodel.holds p hmem, hmodel.pinned p hmem⟩

/-- A guard of an approved intent that reads the ledger is true of its balances. -/
theorem holds_of_guard (h : (j.decide course i b).1.approved = true) (hp : p ∈ i.guard)
    (hreads : p.ReadsLedger i) (others : Values) :
    p.Holds j.precision (b.asValues others) := by
  obtain ⟨ρ, hholds, hpinned⟩ := exists_of_guard h hp
  exact (Predicate.holds_asValues_iff hreads hpinned others).mp hholds

end Judge

namespace Service

variable {s : Service} {i : Intent} {p : Predicate}

theorem approved_verify (s : Service) (i : Intent) (host : Host) (d : Disk) :
    ((s.verify i host).run d).1.2.approved =
      (s.judge.decide host.course i s.layer.balances).1.approved := by
  obtain ⟨-, hdecision⟩ := returns_verify s i host d
  rw [hdecision]

/-- An intent is rejected if one of its guards reads the ledger and is false of its balances. -/
theorem rejected_of_balances (host : Host) (d : Disk) (hp : p ∈ i.guard)
    (hreads : p.ReadsLedger i) {others : Values}
    (hfalse : ¬ p.Holds s.judge.precision (s.layer.balances.asValues others)) :
    ((s.verify i host).run d).1.2.approved = false := by
  rw [approved_verify, Bool.eq_false_iff]
  intro happroved
  exact hfalse (Judge.holds_of_guard happroved hp hreads others)

/-- An intent is rejected if one of its guards is false whatever values its variables have, as
long as the balances before the transition that do not come from outside are those of the
ledger. -/
theorem rejected_of_guard (host : Host) (d : Disk) (hp : p ∈ i.guard)
    (hfalse : ∀ ρ : Values,
      (∀ name ∈ p.occurrences, Logic.Pinned (s.judge.context i s.layer.balances) ρ name) →
      ¬ p.Holds s.judge.precision ρ) :
    ((s.verify i host).run d).1.2.approved = false := by
  rw [approved_verify, Bool.eq_false_iff]
  intro happroved
  obtain ⟨ρ, hholds, hpinned⟩ := Judge.exists_of_guard happroved hp
  exact hfalse ρ hpinned hholds

open Ledger (foundedDisk twoState)

/-- Whether two accounts together have more than the two of the example. -/
def moreTogether : Predicate :=
  ⟨.add (.var "alice.balance") (.var "bob.balance"), .gt, .lit "120"⟩

/-- A transfer between two accounts that should have more together than they have. -/
def richTransfer : Intent := .ofPredicates "rich" [moreTogether]
  [⟨.var "alice.balance'", .eq, .sub (.var "alice.balance") (.lit "40")⟩,
    ⟨.var "bob.balance'", .eq, .add (.var "bob.balance") (.lit "40")⟩]

/-- A transfer that is rejected for the sum in its guard, whatever happens to the verifiers. -/
theorem rejected_richTransfer : moreTogether ∈ richTransfer.guard ∧
    (∀ ρ : Values,
      (∀ name ∈ moreTogether.occurrences,
        Logic.Pinned (twoAccounts.judge.context richTransfer twoAccounts.layer.balances) ρ name) →
      ¬ moreTogether.Holds 28 ρ) ∧
    ∀ host, ((twoAccounts.verify richTransfer host).run
      (foundedDisk twoState)).1.2.approved = false := by
  have hguard : moreTogether ∈ richTransfer.guard := List.mem_cons_self
  have hreads : moreTogether.ReadsLedger richTransfer := by
    unfold Predicate.ReadsLedger
    decide
  have hfalse : ∀ ρ : Values,
      (∀ name ∈ moreTogether.occurrences,
        Logic.Pinned (twoAccounts.judge.context richTransfer twoAccounts.layer.balances) ρ name) →
      ¬ moreTogether.Holds 28 ρ := by
    intro ρ hpinned hholds
    have hledger := (Predicate.holds_asValues_iff hreads hpinned 0).mp hholds
    exact absurd hledger (by decide +kernel)
  exact ⟨hguard, hfalse, fun host => rejected_of_guard host (foundedDisk twoState) hguard hfalse⟩

/-- A pledge on behalf of a balance that comes from outside. -/
def pledge : Intent where
  id := "pledge"
  guard := [⟨.var "bob.balance", .ge, .lit "420"⟩]
  verify := [⟨.var "alice.balance'", .eq, .sub (.var "alice.balance") (.lit "40")⟩,
    ⟨.var "carol.balance'", .eq, .add (.var "carol.balance") (.lit "40")⟩]
  metadata := .none
  variableFlags := .ofList [("bob.balance", ⟨true, false⟩)]

/-- A guard that is false of the ledger does not stop an intent whose balances come from
outside. -/
theorem approved_pledge : ∃ s report s₁ c,
    (recover .usual (.memory []) (.still 0)).run.run (foundedDisk twoState) =
      (.ok (s, report), foundedDisk twoState) ∧
    (∃ p ∈ pledge.guard,
      (∀ name ∈ p.occurrences, (BalanceName.beforeAccount? name).isSome = true) ∧
      (∀ text ∈ p.literals, (Decimal.parse text s.judge.precision).toOption.isSome = true) ∧
      ¬ p.Holds s.judge.precision (s.layer.balances.asValues 0)) ∧
    (s.verify pledge (.still 0)).run (foundedDisk twoState) = ((s₁, c), foundedDisk twoState) ∧
    c.approved = true := by
  obtain ⟨report, hrecover⟩ := recover_twoAccounts (.still 0)
  obtain ⟨events, hverify⟩ := run_verify twoAccounts pledge (foundedDisk twoState) (.still 0) rfl
  have happroved : (usualJudge.decide .calm pledge twoState.balances).1.approved = true := by
    decide +kernel
  refine ⟨twoAccounts, report, _, _, hrecover, ?_, hverify, happroved⟩
  decide +kernel

end Service
end LedgerGate

import LedgerGate.Proofs.Solver.Check
import LedgerGate.Proofs.Solver.Translation
import LedgerGate.Verifier.Logic

/-!
# What an approval by logic means

The question for the solver is solved by the values under which all predicates are true and the
balances of the snapshot are what they are (`Logic.solves_query_iff`). An approval says that
there are such values (`Logic.exists_of_approve`).
-/

namespace LedgerGate.Logic

/-- Whether a balance before the transition that does not come from outside is that of the
snapshot. -/
def Pinned (c : Context) (ρ : Values) (name : String) : Prop :=
  ∀ account, BalanceName.beforeAccount? name = some account → c.intent.isExternal name = false →
    ρ name = (c.balances.of account).value

/-- Values under which all predicates are true, and the balances before the transition are those
of the snapshot. -/
structure IsModel (c : Context) (ρ : Values) : Prop where
  holds : ∀ p ∈ c.intent.predicates, p.Holds c.precision ρ
  pinned : ∀ p ∈ c.intent.predicates, ∀ name ∈ p.occurrences, Pinned c ρ name

variable {c : Context} {ρ : Values}

theorem pinned_of_pin?_none {name : String} (h : pin? c name = none) : Pinned c ρ name := by
  intro account haccount hexternal
  unfold pin? at h
  split at h
  · next hnone => exact absurd (hnone.symm.trans haccount) nofun
  · split at h
    · next he => exact absurd (he.symm.trans hexternal) nofun
    · exact absurd h nofun

theorem holds_pin?_iff {name : String} {p : Constraint} (h : pin? c name = some (.ok p)) :
    p.Holds ρ ↔ Pinned c ρ name := by
  unfold pin? at h
  split at h
  · exact absurd h nofun
  · next account haccount =>
    split at h
    · exact absurd h nofun
    · next he =>
      obtain ⟨q, hq, hp⟩ := Option.bind_eq_some_iff.mp
        (Constraint.orOverflow_ok (Option.some.inj h))
      rw [Constraint.holds_pin? hp, Fraction.value_ofDecimal? hq]
      refine ⟨fun hvalue account' haccount' _ => ?_, fun hpinned => ?_⟩
      · obtain rfl := Option.some.inj (haccount.symm.trans haccount')
        exact hvalue
      · exact hpinned account haccount (Bool.not_eq_true _ ▸ he)

theorem solves_pins_iff {names : List String} {ps : List Constraint} (h : pins c names = .ok ps) :
    Solves ρ ps ↔ ∀ name ∈ names, Pinned c ρ name := by
  induction names generalizing ps with
  | nil =>
    obtain rfl := Except.ok.inj h
    exact iff_of_true solves_nil fun n hn => absurd hn List.not_mem_nil
  | cons name r ih =>
    unfold pins at h
    rw [List.forall_mem_cons]
    split at h
    · next hnone => rw [ih h, and_iff_right (pinned_of_pin?_none hnone)]
    · exact absurd h nofun
    · next p hp =>
      split at h
      · exact absurd h nofun
      · next qs hqs =>
        obtain rfl := Except.ok.inj h
        rw [solves_cons, ih hqs, holds_pin?_iff hp]

theorem mem_mentioned_iff {i : Intent} {name : String} :
    name ∈ mentioned i ↔ ∃ p ∈ i.predicates, name ∈ p.occurrences := by
  rw [mentioned, mem_distinctNames_iff, List.mem_flatMap]

/-- The question for the solver is solved exactly by the models of the intent. -/
theorem solves_query_iff {cs : List Constraint} (h : query c = .ok cs) :
    Solves ρ cs ↔ IsModel c ρ := by
  unfold query at h
  split at h
  · exact absurd h nofun
  · next ds hds =>
    split at h
    · exact absurd h nofun
    · next ps hps =>
      obtain rfl := Except.ok.inj h
      rw [solves_append, Constraint.solves_ofPredicates_iff hds, solves_pins_iff hps]
      refine ⟨fun ⟨hholds, hpinned⟩ => ⟨hholds, fun p hp name hname => ?_⟩,
        fun hm => ⟨hm.holds, fun name hname => ?_⟩⟩
      · exact hpinned name (mem_mentioned_iff.mpr ⟨p, hp, hname⟩)
      · obtain ⟨p, hp, hname⟩ := mem_mentioned_iff.mp hname
        exact hm.pinned p hp name hname

theorem ofAnswer_approve {a : Solver.Answer} (h : (ofAnswer a).decision = .approve) :
    ∃ n m, a = .sat n m := by
  cases a with
  | sat n m => exact ⟨n, m, rfl⟩
  | unsat r => exact absurd h nofun
  | unknown r => exact absurd h nofun

end LedgerGate.Logic

namespace LedgerGate

namespace Verdict

variable {id : VerifierId} {c : Context}

theorem ifInTime_eq {deadline : Deadline} {v : Verdict}
    (h : (ifInTime id deadline v).decision ≠ .uncertain) : ifInTime id deadline v = v := by
  unfold ifInTime at h ⊢
  split at h
  · exact absurd rfl h
  · next hlate => rw [if_neg hlate]

/-- A decision one way or the other is the verifier's own. -/
theorem eq_bounded {work : Except Fault Verdict}
    (h : (bounded id c work).decision ≠ .uncertain) : work = .ok (bounded id c work) := by
  have hintime := ifInTime_eq h
  cases work with
  | error f =>
    have hfault : bounded id c (.error f) = ofEnding id (.fault f) := hintime
    rw [hfault] at h
    exact absurd rfl h
  | ok v => exact congrArg Except.ok hintime.symm

end Verdict

namespace Logic

variable {maxConstraints : Nat} {c : Context}

/-- A decision one way or the other is the solver's answer to the question. -/
theorem exists_query (h : (verify maxConstraints c).decision ≠ .uncertain) :
    ∃ cs, query c = .ok cs ∧ verify maxConstraints c =
      ofAnswer (Solver.check
        ⟨c.watch, maxConstraints, Solver.Budget.usualDisequalities⟩ cs) := by
  have hwork : work maxConstraints c = .ok (verify maxConstraints c) := Verdict.eq_bounded h
  unfold work at hwork
  split at hwork
  · cases hwork
  · rw [← Except.ok.inj hwork] at h
    exact absurd rfl h
  · rw [← Except.ok.inj hwork] at h
    exact absurd rfl h
  · next cs hcs => exact ⟨cs, hcs, (Except.ok.inj hwork).symm⟩

/-- What logic approves has a model. -/
theorem exists_of_approve (h : (verify maxConstraints c).decision = .approve) :
    ∃ ρ, IsModel c ρ := by
  obtain ⟨cs, hcs, hanswer⟩ := exists_query (by rw [h]; nofun)
  rw [hanswer] at h
  obtain ⟨n, m, hsat⟩ := ofAnswer_approve h
  obtain ⟨ρ, hρ⟩ := Solver.exists_of_check hsat
  exact ⟨ρ, (solves_query_iff hcs).mp hρ⟩

end Logic
end LedgerGate

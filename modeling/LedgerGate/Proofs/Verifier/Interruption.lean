import LedgerGate.Judge
import LedgerGate.Proofs.Solver.Interruption
import LedgerGate.Proofs.Verifier.Logic

/-!
# Verifiers that are told to stop

Whenever a verifier looks up from its work, it may be told that it was called off or that its time
has passed. This can make it leave an intent undecided, and nothing else: a decision one way or the
other is the one that it comes to when nothing tells it to stop (`Judge.verdict_calm`).
-/

namespace LedgerGate

/-- What the verifier sees that nothing tells to stop. -/
def Context.calm (c : Context) : Context := { c with cancelled := .never, deadline := .never }

variable {c : Context} {v : Verdict}

theorem Context.ensureLive_calm (m : Moment) : c.calm.ensureLive m = .ok () := rfl

/-- In a calm context the verdict is what the work comes to. -/
theorem Verdict.bounded_calm (id : VerifierId) : bounded id c.calm (.ok v) = v := rfl

/-- A decision is that of a calm context if the work that comes to it comes to it there too. -/
theorem Verdict.bounded_eq_calm {id : VerifierId} {work work' : Except Fault Verdict}
    (hdecided : (bounded id c work).decision ≠ .uncertain)
    (hwork : work = .ok (bounded id c work) → work' = .ok (bounded id c work)) :
    bounded id c work = bounded id c.calm work' := by
  rw [hwork (eq_bounded hdecided), bounded_calm]

/-! ## Logic -/

namespace Logic

theorem pins_calm (names : List String) : pins c.calm names = pins c names := by
  induction names with
  | nil => rfl
  | cons name rest ih =>
    simp only [pins, ih]
    rfl

theorem query_calm : query c.calm = query c := by
  simp only [query, pins_calm]
  rfl

theorem work_calm {n : Nat} (h : work n c = .ok v) (hdecided : v.decision ≠ .uncertain) :
    work n c.calm = .ok v := by
  unfold work at h ⊢
  rw [query_calm]
  cases hquery : query c with
  | error e =>
    rw [hquery] at h
    cases e with
    | malformed f => exact h
    | nonlinear => exact h
    | overflow => exact h
  | ok cs =>
    rw [hquery] at h
    obtain rfl := Except.ok.inj h
    rcases Solver.check_eq_or_unknown ⟨c.watch, n, Solver.Budget.usualDisequalities⟩ cs with
      hsame | ⟨o, ho⟩
    · rw [hsame]
      rfl
    · rw [ho] at hdecided
      exact absurd rfl hdecided

end Logic

/-! ## Conservation -/

theorem Conservation.work_calm (h : work c = .ok v) : work c.calm = .ok v := by
  have hderive : derive c.calm.intent c.calm.balances c.calm.precision =
      derive c.intent c.balances c.precision := rfl
  unfold work at h ⊢
  rw [Context.ensureLive_calm, Context.ensureLive_calm, hderive]
  cases hfirst : c.ensureLive .start with
  | error f =>
    rw [hfirst] at h
    cases h
  | ok u =>
    rw [hfirst] at h
    cases hd : derive c.intent c.balances c.precision with
    | error e =>
      rw [hd] at h
      exact h
    | ok d =>
      rw [hd] at h
      cases hsecond : c.ensureLive Moment.start.next with
      | error f =>
        rw [hsecond] at h
        cases h
      | ok u =>
        rw [hsecond] at h
        exact h

/-! ## Patterns -/

namespace Pattern

variable {s : Settings}

theorem stayLive_calm (n : Nat) : stayLive c.calm n = .ok () := by
  induction n with
  | zero => rfl
  | succ n ih =>
    simp only [stayLive, ih]
    rfl

theorem work_calm (h : work s c = .ok v) : work s c.calm = .ok v := by
  unfold work scan at h ⊢
  rw [stayLive_calm]
  cases hlive : stayLive c c.intent.predicates.length with
  | error f =>
    rw [hlive] at h
    cases h
  | ok u =>
    rw [hlive] at h
    exact h

end Pattern

/-! ## Verdicts -/

/-- A verifier that decides one way or the other decides as if nothing told it to stop. -/
theorem Judge.verdict_calm {pattern : Pattern.Settings} {id : VerifierId}
    (h : (verdict pattern c id).decision ≠ .uncertain) :
    verdict pattern c id = verdict pattern c.calm id := by
  cases id with
  | logic => exact Verdict.bounded_eq_calm h fun hwork => Logic.work_calm hwork h
  | conservation => exact Verdict.bounded_eq_calm h Conservation.work_calm
  | pattern => exact Verdict.bounded_eq_calm h Pattern.work_calm

end LedgerGate

import LedgerGate.Proofs.Ledger.Refusal
import LedgerGate.Proofs.Ledger.Outcome

/-!
# Interrupted commits

A commit that was told to stop after its state has got into the state file says that it was
interrupted only if it did stop there (`Layer.returns_commit_renamed`).
-/

namespace LedgerGate

/-- Whether a fault is that of an interrupted transaction. -/
def Fault.IsInterruption (f : Fault) : Prop := ∃ reason, f = .interrupted reason

theorem Fault.IsIo.not_interruption {f : Fault} (h : f.IsIo) : ¬ f.IsInterruption := by
  obtain ⟨path, source, rfl⟩ := h
  rintro ⟨reason, heq⟩
  exact absurd heq nofun

namespace Layer

open Ledger
open Log (Entry)

variable {l : Layer} {b : Entry} {time : UInt64} {δ : Delta}

/-! ## Faults that are no interruption -/

theorem raises_logStep (l : Layer) (e : Entry) :
    (l.logStep e).Raises fun f => ¬ f.IsInterruption := by
  unfold logStep
  split
  · next f hf =>
    intro d g hg
    obtain rfl : f = g := Except.error.inj hg
    unfold refuseStep at hf
    rintro ⟨reason, rfl⟩
    split_ifs at hf
    · exact absurd (Option.some.inj hf) nofun
    · exact absurd (Option.some.inj hf) nofun
  · have happend : (l.log.append e).Raises fun f => ¬ f.IsInterruption := fun d f hf =>
      (Log.File.raises_appendBytes d f hf).not_interruption
    exact happend.bind fun _ => Job.raises_pure _

theorem returns_logStep_noted (l : Layer) (e : Entry) :
    (l.logStep e).Returns fun l' => ∃ log, l' = l.noted log e := by
  unfold logStep
  split
  · exact Job.returns_fail
  · exact (Job.returns_true _).bind fun log _ => Job.returns_pure ⟨log, rfl⟩

/-- An abort keeps the fault that led to it. -/
theorem returns_abort_fault (temp : Option String) (f : Fault) :
    (l.abort b time temp f).Returns fun r => r.2 = .error f := by
  have hlast : (l.logRollback b time f).Returns fun r => r.2 = .error f := by
    unfold logRollback
    refine Program.Returns.bind (returns_logStep l _) fun r _ => ?_
    cases r <;> exact Program.returns_pure rfl
  cases temp with
  | none => exact hlast
  | some name =>
    rw [abort_some]
    exact Program.Returns.bind (Job.returns_true _) fun _ _ => hlast

/-! ## Interruptions -/

/-- What is known of a commit if it was interrupted. -/
def IfInterrupted (Q : Layer → Prop) (r : Committed) : Prop :=
  ∀ f, r.2 = .error f → f.IsInterruption → Q r.1

variable {Q : Layer → Prop}

theorem ifInterrupted_of_error {f : Fault} (hf : ¬ f.IsInterruption) {r : Committed}
    (hr : r.2 = .error f) : IfInterrupted Q r := by
  intro g hg hi
  obtain rfl : f = g := Except.error.inj (hr.symm.trans hg)
  exact absurd hi hf

theorem returns_abort_interrupted {temp : Option String} {f : Fault} (hf : ¬ f.IsInterruption) :
    (l.abort b time temp f).Returns (IfInterrupted Q) :=
  (returns_abort_fault temp f).mono fun _ => ifInterrupted_of_error hf

theorem returns_fault_interrupted {f : Fault} (hf : ¬ f.IsInterruption) :
    (pure (l, .error f) : Program Committed).Returns (IfInterrupted Q) :=
  Program.returns_pure (ifInterrupted_of_error hf rfl)

theorem returns_finish_interrupted (crash : Option CrashPoint) :
    (l.finish crash).Returns (IfInterrupted Q) := by
  unfold finish compactIfDue
  split
  · exact Program.returns_pure nofun
  · split
    · refine Program.Returns.bind l.raises_compact fun r hr => ?_
      cases r with
      | ok p => exact Program.returns_pure nofun
      | error f => exact returns_fault_interrupted (hr f rfl).not_interruption
    · exact Program.returns_pure nofun

theorem not_interruption_of_admission {tx : String} {c : Consensus} {f : Fault}
    (h : l.admission tx c = .error f) : ¬ f.IsInterruption := by
  rintro ⟨reason, rfl⟩
  unfold admission checkTx ensureServing at h
  split at h
  · next htx =>
    split at htx
    · exact absurd htx nofun
    · exact absurd (htx.trans (congrArg _ (Except.error.inj h))) nofun
  · split at h
    · next hserving =>
      split at hserving
      · exact absurd (hserving.trans (congrArg _ (Except.error.inj h))) nofun
      · exact absurd hserving nofun
    · exact absurd h nofun

theorem returns_install_renamed (next : State) :
    (l.install b time next (some .renamed)).Returns (IfInterrupted fun l' =>
      l' = (l.follow next).halt CrashPoint.renamed.message) := by
  unfold install
  refine Program.Returns.bind (Log.raises_perform_io _ _) fun r hr => ?_
  cases r with
  | error f => exact returns_abort_interrupted (hr f rfl).not_interruption
  | ok u =>
    refine Program.Returns.bind (Log.raises_perform_io _ _) fun r hr => ?_
    cases r with
    | error f => exact returns_fault_interrupted (hr f rfl).not_interruption
    | ok u =>
      show Program.Returns (ite _ _ _) _
      rw [if_pos rfl]
      exact Program.returns_pure fun _ _ _ => rfl

theorem returns_applyBegun_renamed (intentHash : String) :
    (l.applyBegun b time intentHash δ (some .renamed)).Returns (IfInterrupted fun l' => ∃ next,
      l.state.applied b.tx intentHash b.payloadHash δ = .ok next ∧
        l' = (l.follow next).halt CrashPoint.renamed.message) := by
  unfold applyBegun
  split
  · next f hf =>
    refine returns_abort_interrupted ?_
    unfold State.applied at hf
    rintro ⟨reason, rfl⟩
    split_ifs at hf
    exact absurd (Except.error.inj hf) nofun
  · next next hnext =>
    rw [if_neg nofun]
    refine Program.Returns.bind Log.File.raises_writeWhole fun r hr => ?_
    cases r with
    | error f => exact returns_abort_interrupted (hr f rfl).not_interruption
    | ok u =>
      show Program.Returns (ite _ _ _) _
      rw [if_neg nofun]
      exact (returns_install_renamed next).mono fun r hr f hf hi => ⟨next, hnext, hr f hf hi⟩

theorem returns_beginAndApply_renamed (intentHash : String) :
    (l.beginAndApply b time intentHash δ (some .renamed)).Returns (IfInterrupted fun l' =>
      ∃ log next, l.state.applied b.tx intentHash b.payloadHash δ = .ok next ∧
        l' = ((l.noted log b).follow next).halt CrashPoint.renamed.message) := by
  unfold beginAndApply
  have hlogged : (l.logStep b).run.Returns fun r =>
      (∀ f, r = .error f → ¬ f.IsInterruption) ∧ ∀ l', r = .ok l' → ∃ log, l' = l.noted log b :=
    fun d => ⟨raises_logStep l b d, returns_logStep_noted l b d⟩
  refine Program.Returns.bind hlogged fun r ⟨herror, hok⟩ => ?_
  cases r with
  | error f => exact returns_fault_interrupted (herror f rfl)
  | ok l₁ =>
    obtain ⟨log, rfl⟩ := hok l₁ rfl
    show Program.Returns (ite _ _ _) _
    rw [if_neg nofun]
    refine Program.Returns.bind (returns_applyBegun_renamed intentHash) fun c hc => ?_
    obtain ⟨l₁, r⟩ := c
    match r, hc with
    | .ok .committed, _ => exact returns_finish_interrupted _
    | .ok .discarded, _ => exact Program.returns_pure nofun
    | .error e, hc =>
      refine Program.returns_pure fun f hf hi => ?_
      obtain ⟨next, hnext, hl'⟩ := hc f hf hi
      rw [state_noted] at hnext
      exact ⟨log, next, hnext, hl'⟩

/-- A commit that was interrupted where it was told to has begun a transaction and applied the
delta of the decision, which was not stale. -/
theorem returns_commit_renamed (l : Layer) (tx : String) (c : Consensus) (host : Host) :
    (l.commit tx c host (some .renamed)).Returns (IfInterrupted fun l' => ∃ δ log next,
      l.admission tx c = .ok (some δ) ∧ l.isStale δ = false ∧
      l.state.applied tx c.intentHash (payloadHash tx c.intentHash δ) δ = .ok next ∧
      l' = ((l.noted log
        ⟨.begin, tx, payloadHash tx c.intentHash δ, host.clock 0⟩).follow next).halt
          CrashPoint.renamed.message) := by
  unfold commit
  split
  · next f hf => exact returns_fault_interrupted (not_interruption_of_admission hf)
  · exact Program.returns_pure nofun
  · next δ hadm =>
    split
    · exact Program.returns_pure nofun
    · next hstale =>
      have hstale : l.isStale δ = false := Bool.not_eq_true _ ▸ hstale
      refine (returns_beginAndApply_renamed _).mono fun r hr f hf hi => ?_
      obtain ⟨log, next, hnext, hl'⟩ := hr f hf hi
      exact ⟨δ, log, next, hadm, hstale, hnext, hl'⟩

/-! ## Commits that are interrupted -/

variable {d : Disk} {tx : String} {c : Consensus}

theorem run_applyBegun_renamed (time : UInt64) (intentHash : String) (δ : Delta)
    (hversion : l.state.version < State.maxVersion) (htidy : Tidy none d) : ∃ next e,
    l.state.applied b.tx intentHash b.payloadHash δ = .ok next ∧
    (l.applyBegun b time intentHash δ (some .renamed)).run d =
      ((l.follow next).crashed .renamed, e) ∧
    Tidy none e := by
  obtain ⟨next, hnext⟩ : ∃ next, l.state.applied b.tx intentHash b.payloadHash δ = .ok next :=
    State.exists_applied hversion
  obtain ⟨j, d₁, e, hcreate, hrename, htidy'⟩ := exists_renamed next b htidy
  refine ⟨next, e, hnext, ?_, htidy'⟩
  rw [run_applyBegun_written (some .renamed) hnext hcreate nofun nofun,
    run_install next (some .renamed) hrename htidy'.base, if_pos rfl]
  rfl

theorem run_beginAndApply_renamed (intentHash : String) (δ : Delta)
    (hok : l.refuseStep b.op b.tx = none) (hversion : l.state.version < State.maxVersion)
    (htidy : Tidy none d) : ∃ l' e, (l.beginAndApply b time intentHash δ (some .renamed)).run d =
      ((l', .error (.interrupted CrashPoint.renamed.message)), e) := by
  obtain ⟨log, hlog⟩ := run_logStep (l := l) (d := d) hok
  obtain ⟨next, e, -, hrun, -⟩ := run_applyBegun_renamed (l := l.noted log b) (b := b) time
    intentHash δ (by rwa [state_noted]) (htidy.append l.log.id b.bytes)
  refine ⟨((l.noted log b).follow next).halt CrashPoint.renamed.message, e, ?_⟩
  unfold beginAndApply
  rw [Job.run_run_bind_ok hlog]
  show ((applyBegun _ b time intentHash δ (some .renamed)) >>= _ : Program Committed).run _ = _
  rw [Program.run_bind, hrun]
  rfl

/-- A transaction that may be committed can be interrupted. -/
theorem run_commit_renamed (host : Host) (hadmission : l.admission tx c = .ok (some δ))
    (hstale : l.isStale δ = false) (hnew : l.isUsed tx = false)
    (hversion : l.state.version < State.maxVersion) (htidy : Tidy none d) : ∃ l' e,
    (l.commit tx c host (some .renamed)).run d =
      ((l', .error (.interrupted CrashPoint.renamed.message)), e) := by
  rw [commit_of_admission hadmission hstale]
  have hok : l.refuseStep .begin tx = none := by simp [refuseStep, hnew, Log.Op.isTerminal]
  exact run_beginAndApply_renamed _ δ hok hversion htidy

end Layer
end LedgerGate

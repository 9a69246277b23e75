import LedgerGate.Proofs.Ledger.Compaction

/-!
# Commits are safe

A commit that stops anywhere leaves files from which the balances before it or those after it
can be recovered; which of the two, is decided by the line of its end in the log
(`Layer.safely_commit`).
-/

namespace LedgerGate

open Ledger
open Log (Entry lines openIn endedIn committedIn)

/-- What may be committed is the delta of an approved decision that names its intent, and it
conserves. -/
theorem Consensus.committable?_eq_some_iff {c : Consensus} {δ : Delta} :
    c.committable? = some δ ↔
      c.approved = true ∧ c.intentHash ≠ "" ∧ c.delta = some δ ∧ δ.conserves = .ok () := by
  constructor
  · intro h
    unfold committable? at h
    split at h
    · next hready =>
      obtain ⟨happroved, hintent⟩ := (Bool.and_eq_true _ _).mp hready
      split at h
      · next d hd =>
        split at h
        · next hok =>
          obtain rfl := Option.some.inj h
          exact ⟨happroved, of_decide_eq_true hintent, hd, hok⟩
        · exact absurd h nofun
      · exact absurd h nofun
    · exact absurd h nofun
  · rintro ⟨happroved, hintent, hdelta, hconserves⟩
    simp [committable?, happroved, hintent, hdelta, hconserves]

theorem Consensus.committable?_eq_some {c : Consensus} {δ : Delta} (h : c.committable? = some δ) :
    c.approved = true ∧ c.delta = some δ ∧ δ.conserves = .ok () := by
  obtain ⟨happroved, -, hdelta, hconserves⟩ := committable?_eq_some_iff.mp h
  exact ⟨happroved, hdelta, hconserves⟩

theorem utf8ByteSize_textDigest_le (s : String) : (Sha256.textDigest s).utf8ByteSize ≤ 256 := by
  have h := (Text.Utf8.length_encode_bounds (Sha256.textDigest s)).2
  rwa [Text.Utf8.length_encode, Sha256.length_textDigest] at h

theorem checkTx_eq_ok_iff {tx : String} : checkTx tx = .ok () ↔ isTx tx = true := by
  unfold checkTx
  split <;> simp_all

theorem checkTx_ok {tx : String} (h : checkTx tx = .ok ()) : tx ≠ "" ∧ tx.utf8ByteSize ≤ 128 := by
  have htx := checkTx_eq_ok_iff.mp h
  simp only [isTx, Bool.and_eq_true, decide_eq_true_eq] at htx
  exact ⟨htx.1.1.1, htx.1.1.2⟩

namespace Layer

variable {η : Type} {note : η → List Entry → η} {J : η → Files → Prop} {δ : Delta} {h : η}
  {d : Disk} {i : Nat} {F : Files} {l : Layer} {b : Entry} {time : UInt64}

/-- Whether a layer and its files are in the middle of a transaction. -/
structure Underway (J : η → Files → Prop) (h : η) (d : Disk) (i : Nat) (F : Files) (l : Layer)
    (b : Entry) : Prop where
  stores : Stores d i F
  coherent : F.Coherent J h
  mirrors : l.Mirrors i F
  begun : l.begun = [b]
  sound : b.IsSound

/-- What a commit leaves: a layer for the ledger on the disk, and nothing is said to be
committed without its end having been in the log. -/
def Settles (J : η → Files → Prop) (tx : String) (c : Committed) (h : η) (d : Disk) : Prop :=
  c.1.StandsFor J h d ∧
    (c.2 = .ok .committed → ∃ F : Files, F.Coherent J h ∧ tx ∈ committedIn F.log)

/-- What is left when the delta was applied or not: where the transaction has ended, it was the only
one that was open. -/
def Ends (J : η → Files → Prop) (tx : String) (c : Committed) (h : η) (d : Disk) : Prop :=
  match c.2 with
  | .ok .committed => ∃ i F, Stores d i F ∧ F.Coherent J h ∧ c.1.Mirrors i F ∧ c.1.begun = [] ∧
      tx ∈ committedIn F.log
  | _ => c.1.StandsFor J h d

theorem settles_error {tx : String} (hl : l.StandsFor J h d) (f : Fault) :
    Settles J tx (l, .error f) h d := by
  refine ⟨hl, fun hok => ?_⟩
  cases hok

/-- A layer that serves no more may have transactions that are open in its files. -/
theorem standsFor_halt (hs : Stores d i F) (hF : F.Coherent J h) (hl : l.Mirrors i F)
    (reason : String) : (l.halt reason).StandsFor J h d := by
  refine ⟨i, F, hs, hF, hl.halt reason, fun hserves => ?_⟩
  cases hserves

theorem Underway.opened (hu : Underway J h d i F l b) : openIn F.log = [b] :=
  hu.mirrors.begun.symm.trans hu.begun

theorem Underway.mem_open (hu : Underway J h d i F l b) :
    b.tx ∈ (openIn F.log).map Entry.tx := by simp [hu.opened]

theorem Underway.standsFor_halt (hu : Underway J h d i F l b) (reason : String) :
    (l.halt reason).StandsFor J h d :=
  Layer.standsFor_halt hu.stores hu.coherent hu.mirrors reason

theorem Underway.crashed (hu : Underway J h d i F l b) (p : CrashPoint) :
    Ends J b.tx (l.crashed p) h d := hu.standsFor_halt _

theorem begun_noted {log : Log.File} {e : Entry} (hb : l.begun = [b]) (he : e.tx = b.tx)
    (hop : e.op ≠ .begin) : (l.noted log e).begun = [] := by
  simp [noted, hop, hb, he]

/-- The last step of an abort, which logs that the transaction was rolled back. -/
def logRollback (l : Layer) (b : Entry) (time : UInt64) (f : Fault) : Program Committed := do
  let r ← (l.logStep (b.ending .rollback time)).run
  match r with
  | .ok l' => return (l', .error f)
  | .error e => return (l.halt ("ROLLBACK could not be logged: " ++ e.message), .error f)

theorem abort_some (name : String) (f : Fault) : l.abort b time (some name) f =
    ((Job.attempt (.remove name)).run >>= fun _ => l.logRollback b time f) := rfl

/-- What a program does safely that no fault can end. -/
abbrev SafelyRuns {α : Type} (note : η → List Entry → η) (J : η → Files → Prop) (p : Program α)
    (Q : α → η → Disk → Prop) : η → Disk → Prop :=
  p.Keeps (fun h d => note h (logEntries d)) (Consistent J) Q

variable [Noting note J] [Lasting J]

/-- A transaction that is not in the state is logged as rolled back. -/
theorem Underway.safely_logRollback (hu : Underway J h d i F l b)
    (hundo : ∀ u, F.state.undo = some u → u.tx ≠ b.tx) (f : Fault) :
    SafelyRuns note J (l.logRollback b time f) (Ends J b.tx) h d := by
  have hsound := hu.sound.ending .rollback time
  have hF' : Files.Coherent J h { F with log := F.log ++ [b.ending .rollback time] } :=
    hu.coherent.repair (.rollback hsound rfl hu.mem_open hundo)
  have hnote : note h (F.log ++ [b.ending .rollback time]) = h := hF'.look
  refine Job.Keeps.run_bind (safely_logStep hu.stores hu.coherent hu.mirrors hsound
    (fun _ => hnote.symm ▸ hF') (fun d₁ log _ hid hname hs₁ => ?_) fun e => ?_)
  · rw [hnote]
    refine Program.keeps_pure ⟨i, _, hs₁, hF', ?_, fun _ => ?_⟩
    · exact hu.mirrors.noted_terminal (e := b.ending .rollback time) (by simp) hsound hid hname
    · exact begun_noted hu.begun rfl (by simp)
  · exact Program.keeps_pure (hu.standsFor_halt _)

/-- A transaction that is not in the state is rolled back. -/
theorem Underway.safely_abort (hu : Underway J h d i F l b)
    (hundo : ∀ u, F.state.undo = some u → u.tx ≠ b.tx) {temp : Option String}
    (htemp : ∀ n, temp = some n → isTempName n = true) (f : Fault) :
    SafelyRuns note J (l.abort b time temp f) (Ends J b.tx) h d := by
  cases temp with
  | none => exact hu.safely_logRollback hundo f
  | some n =>
    have hn := htemp n rfl
    have hs₁ : Stores (FileOp.apply (.remove n) d).2 i F := by
      show Stores (FileOp.changed d (d.remove n)).2 i F
      cases hr : d.remove n with
      | error e => exact hu.stores
      | ok d₁ => exact hu.stores.removeTemp hn hr
    have hu₁ : Underway J h (FileOp.apply (.remove n) d).2 i F l b := { hu with stores := hs₁ }
    rw [abort_some]
    refine Job.Keeps.run_bind (Job.keeps_attempt (fun _ ht => ht.elim) ?_ ?_) <;>
      rw [hs₁.look note hu.coherent]
    · exact ⟨i, F, hs₁, hu.coherent⟩
    · exact hu₁.safely_logRollback hundo f

/-- A committed transaction may be followed by a compaction. -/
theorem safely_compactIfDue {tx : String} (hs : Stores d i F) (hF : F.Coherent J h)
    (hl : l.Mirrors i F) (hb : l.begun = []) (htx : tx ∈ committedIn F.log) :
    SafelyRuns note J l.compactIfDue (Settles J tx) h d := by
  unfold compactIfDue
  split
  · refine Job.Keeps.run_bind (safely_compact hs hF hl
      (fun l' n d' F' hs' hl' hc _ => ?_) fun f d' F' _ hs' hr hl' => ?_)
    · exact Program.keeps_pure ⟨⟨_, F', hs', hF.repairs hc.repairs, hl', fun _ =>
        hc.begun.trans hb⟩, fun _ => ⟨F, hF, htx⟩⟩
    · exact Program.keeps_pure ⟨⟨i, F', hs', hF.repairs hr.repairs, hl', fun _ => hb⟩, nofun⟩
  · exact Program.keeps_pure ⟨⟨i, F, hs, hF, hl, fun _ => hb⟩, fun _ => ⟨F, hF, htx⟩⟩

/-- When a transaction has ended, the layer may be told to stop. -/
theorem safely_finish {tx : String} (hs : Stores d i F) (hF : F.Coherent J h) (hl : l.Mirrors i F)
    (hb : l.begun = []) (htx : tx ∈ committedIn F.log) (crash : Option CrashPoint) :
    SafelyRuns note J (l.finish crash) (Settles J tx) h d := by
  unfold finish
  split
  · exact Program.keeps_pure ⟨Layer.standsFor_halt hs hF hl _, fun _ => ⟨F, hF, htx⟩⟩
  · exact safely_compactIfDue hs hF hl hb htx

variable [Recording note J δ]

/-- With its end in the log, a transaction that is in the state is committed. -/
theorem Underway.safely_logEnd (hu : Underway J h d i F l b) {s : State}
    {intentHash payload : String} (hroot : s.merkleRoot = s.computedRoot)
    (hn : s.applied b.tx intentHash payload δ = .ok F.state) :
    SafelyRuns note J (l.logEnd b time) (Ends J b.tx) h d := by
  have hsound := hu.sound.ending .commit time
  have hF' : Files.Coherent J (note h (F.log ++ [b.ending .commit time]))
      { F with log := F.log ++ [b.ending .commit time] } :=
    hu.coherent.change (.commit (δ := δ) hsound rfl hu.mem_open hroot hn)
  have hmem : b.tx ∈ committedIn (F.log ++ [b.ending .commit time]) := by
    simp [committedIn]
  unfold logEnd
  refine Job.Keeps.run_bind (safely_logStep hu.stores hu.coherent hu.mirrors hsound
    (fun _ => hF') (fun d' log _ hid hname hs' => ?_) fun f => ?_)
  · have hl' := hu.mirrors.noted_terminal (e := b.ending .commit time) (by simp) hsound hid hname
    have hb' : (l.noted log (b.ending .commit time)).begun = [] :=
      begun_noted hu.begun rfl (by simp)
    exact Program.keeps_pure ⟨i, _, hs', hF', hl', hb', hmem⟩
  · exact Program.keeps_pure (hu.standsFor_halt _)

/-- The new state takes the place of the state file. -/
theorem Underway.safely_install (hu : Underway J h d i F l b) {next : State} {j : Nat}
    {intentHash payload : String}
    (htemp : d.nodes.get? (tempName b.tx) = some (.file j next.bytes))
    (hF' : Files.Coherent J h { F with state := next })
    (hn : F.state.applied b.tx intentHash payload δ = .ok next) (crash : Option CrashPoint) :
    SafelyRuns note J (l.install b time next crash) (Ends J b.tx) h d := by
  unfold install
  refine Job.Keeps.run_bind (safely_renameState (isTempName_tempName b.tx) hu.stores htemp hF'
    fun d' hs' => ?_)
  have hu' : Underway J h d' i { F with state := next } (l.follow next) b :=
    ⟨hs', hF', { hu.mirrors with state := rfl }, hu.begun, hu.sound⟩
  refine Job.Keeps.run_bind (safely_syncNames hs' hF' ?_)
  show Program.Keeps _ _ (ite _ _ _) _ _ _
  split
  · exact Program.keeps_pure (hu'.crashed .renamed)
  · exact hu'.safely_logEnd hu.coherent.intact.rooted hn

/-- The delta is applied to the state of a transaction that has begun. -/
theorem Underway.safely_applyBegun (hu : Underway J h d i F l b)
    (hold : ∀ u, F.state.undo = some u → u.tx ≠ b.tx) (hconserves : δ.conserves = .ok ())
    (hfresh : ∀ p ∈ δ.changes.entries, (F.state.balances.of p.1).sameValue p.2.before = true)
    {intentHash : String} (hpayload : b.payloadHash = payloadHash b.tx intentHash δ)
    (crash : Option CrashPoint) :
    SafelyRuns note J (l.applyBegun b time intentHash δ crash) (Ends J b.tx) h d := by
  unfold applyBegun
  rw [hu.mirrors.state]
  split
  · exact hu.safely_abort hold (fun n hn => absurd hn (Option.some_ne_none n).symm) _
  · next next hnext =>
    have hF' : Files.Coherent J h { F with state := next } := by
      have hchange : F.Change δ { F with state := next } :=
        .apply (by simp [hu.opened]) hpayload (by simpa [hu.opened] using hold) hconserves hfresh
          hnext
      have hlook : note h F.log = h := hu.coherent.look
      have hnext : Files.Coherent J (note h F.log) { F with state := next } :=
        hu.coherent.change hchange
      rwa [hlook] at hnext
    split
    · exact Program.keeps_pure (hu.crashed .stateApplied)
    · refine Job.Keeps.run_bind (safely_writeWhole (isTempName_tempName b.tx) hu.stores hu.coherent
        (fun d' j hs' htemp _ => ?_) fun f _ => ?_)
      · have hu' : Underway J h d' i F l b := { hu with stores := hs' }
        show Program.Keeps _ _ (ite _ _ _) _ _ _
        split
        · exact Program.keeps_pure (hu'.crashed .tempWritten)
        · exact hu'.safely_install htemp hF' hnext crash
      · exact hu.safely_abort hold (fun n hn => Option.some.inj hn ▸ isTempName_tempName b.tx) f

omit [Noting note J] [Lasting J] [Recording note J δ] in
theorem isUsed_of_refuseStep {tx : String} (hok : l.refuseStep .begin tx = none) :
    ¬ l.isUsed tx = true := by
  intro hused
  simp [refuseStep, hused] at hok

omit [Noting note J] [Lasting J] [Recording note J δ] in
theorem sameValue_of_not_stale (hstale : ¬ l.isStale δ = true) :
    ∀ p ∈ δ.changes.entries, (l.balances.of p.1).sameValue p.2.before = true := by
  rw [l.agreed]
  simpa [isStale] using hstale

omit [Noting note J] [Lasting J] [Recording note J δ] in
/-- A delta is admitted if it may be committed, under a good identifier, on a layer that
serves. -/
theorem admission_eq_some_iff {tx : String} {c : Consensus} : l.admission tx c = .ok (some δ) ↔
    checkTx tx = .ok () ∧ l.fault = none ∧ c.committable? = some δ := by
  refine ⟨fun h => ?_, fun ⟨htx, hserve, hc⟩ => by
    simp only [admission, ensureServing, htx, hserve, hc]⟩
  unfold admission at h
  split at h
  · exact absurd h nofun
  · next htx =>
    split at h
    · exact absurd h nofun
    · next hserve =>
      refine ⟨htx, ?_, Except.ok.inj h⟩
      unfold ensureServing at hserve
      split at hserve
      · exact absurd hserve nofun
      · assumption

omit [Noting note J] [Lasting J] [Recording note J δ] in
/-- A delta that is admitted and not stale is begun and applied. -/
theorem commit_of_admission {tx : String} {c : Consensus} (h : l.admission tx c = .ok (some δ))
    (hstale : l.isStale δ = false) (host : Host) (crash : Option CrashPoint) :
    l.commit tx c host crash =
      l.beginAndApply ⟨.begin, tx, payloadHash tx c.intentHash δ, host.clock 0⟩ (host.clock 1)
        c.intentHash δ crash := by
  unfold commit
  rw [h]
  dsimp only
  rw [hstale, if_neg Bool.false_ne_true]

omit [Noting note J] [Lasting J] [Recording note J δ] in
/-- A commit does nothing unless a delta is admitted that is not stale. -/
theorem commit_cases (l : Layer) (tx : String) (c : Consensus) (host : Host)
    (crash : Option CrashPoint) :
    (∃ r, r ≠ .ok .committed ∧ l.commit tx c host crash = pure (l, r)) ∨
      ∃ δ, l.admission tx c = .ok (some δ) ∧ l.isStale δ = false := by
  have hdiscarded : (.ok .discarded : Except Fault Outcome) ≠ .ok .committed := nofun
  unfold commit
  split
  · next f _ => exact .inl ⟨.error f, nofun, rfl⟩
  · exact .inl ⟨.ok .discarded, hdiscarded, rfl⟩
  · next δ hadmission =>
    split
    · exact .inl ⟨.ok .discarded, hdiscarded, rfl⟩
    · next hstale => exact .inr ⟨δ, hadmission, Bool.eq_false_iff.mpr hstale⟩

omit [Noting note J] [Lasting J] [Recording note J δ] in
/-- When its beginning is in the log, a transaction is underway. -/
theorem underway_noted (hs : Stores d i { F with log := F.log ++ [b] })
    (hF' : Files.Coherent J h { F with log := F.log ++ [b] }) (hl : l.Mirrors i F)
    (hidle : l.begun = []) (hb : b.IsSound) (hop : b.op = .begin) (hnew : b.tx ∉ F.ids)
    {log : Log.File} (hid : log.id = i) (hname : log.name = logName) :
    Underway J h d i { F with log := F.log ++ [b] } (l.noted log b) b where
  stores := hs
  coherent := hF'
  mirrors := by
    refine hl.noted_begin hop (fun hm => hnew ?_) hid hname
    exact Files.mem_ids.mpr (.inl (Log.mem_map_tx_iff.mpr (.inr hm)))
  begun := by simp [noted, hop, hidle]
  sound := hb

/-- A transaction of a new identifier is begun and applied. -/
theorem safely_beginAndApply (hs : Stores d i F) (hF : F.Coherent J h) (hl : l.Mirrors i F)
    (hidle : l.begun = []) (hb : b.IsSound) (hop : b.op = .begin)
    (hconserves : δ.conserves = .ok ())
    (hfresh : ∀ p ∈ δ.changes.entries, (F.state.balances.of p.1).sameValue p.2.before = true)
    {intentHash : String} (hpayload : b.payloadHash = payloadHash b.tx intentHash δ)
    (crash : Option CrashPoint) (hrefused : ∀ f, Settles J b.tx (l, .error f) h d) :
    SafelyRuns note J (l.beginAndApply b time intentHash δ crash) (Settles J b.tx) h d := by
  have hnew : l.refuseStep b.op b.tx = none → b.tx ∉ F.ids := fun hok hmem => by
    rw [hop] at hok
    exact isUsed_of_refuseStep hok (hl.isUsed_iff.mpr hmem)
  have hF' : l.refuseStep b.op b.tx = none →
      Files.Coherent J (note h (F.log ++ [b])) { F with log := F.log ++ [b] } := fun hok =>
    hF.change (.begin (δ := δ) hb hop (hnew hok))
  unfold beginAndApply
  refine Job.Keeps.run_bind (safely_logStep hs hF hl hb hF'
    (fun d' log hok hid hname hs' => ?_) fun f => Program.keeps_pure (hrefused f))
  have hu := underway_noted hs' (hF' hok) hl hidle hb hop (hnew hok) hid hname
  show Program.Keeps _ _ (ite _ _ _) _ _ _
  split
  · exact Program.keeps_pure (settles_error (hu.crashed .beginLogged) _)
  · -- The record in the state is that of a transaction whose identifier has been used.
    refine Program.Keeps.bind ((hu.safely_applyBegun
      (fun u hundo heq => hnew hok (heq ▸ hF.undo_known u hundo))
      hconserves hfresh hpayload crash).mono fun c h₁ d₁ hends => ?_)
    obtain ⟨l₁, r⟩ := c
    cases r with
    | error f => exact Program.keeps_pure (settles_error hends f)
    | ok outcome =>
      cases outcome with
      | committed =>
        obtain ⟨j, F₁, hs₁, hF₁, hl₁, hb₁, htx⟩ := hends
        exact safely_finish hs₁ hF₁ hl₁ hb₁ htx crash
      | discarded =>
        refine Program.keeps_pure ⟨hends, fun hok => ?_⟩
        cases hok

omit [Recording note J δ] in
/-- Wherever a commit stops, the files are consistent. When it comes to an end, the layer
stands for the ledger again, and what is said to be committed is. -/
theorem safely_commit (hl : l.StandsFor J h d) (tx : String) (c : Consensus)
    [Recording note J (c.delta.getD .empty)] (host : Host) (crash : Option CrashPoint) :
    SafelyRuns note J (l.commit tx c host crash) (Settles J tx) h d := by
  obtain ⟨r, hr, hcommit⟩ | ⟨δ, hadmission, hstale⟩ := l.commit_cases tx c host crash
  · rw [hcommit]
    exact Program.keeps_pure ⟨hl, fun hok => absurd hok hr⟩
  · rw [commit_of_admission hadmission hstale]
    obtain ⟨htx, hserve, hc⟩ := admission_eq_some_iff.mp hadmission
    obtain ⟨-, hdelta, hconserves⟩ := Consensus.committable?_eq_some hc
    have hrecording : Recording note J δ := by
      have : Recording note J (c.delta.getD .empty) := inferInstance
      rwa [hdelta, Option.getD_some] at this
    have hrefused : ∀ f, Settles J tx (l, .error f) h d := fun f => ⟨hl, nofun⟩
    obtain ⟨i, F, hs, hF, hmir, hidle⟩ := hl
    have hfresh : ∀ p ∈ δ.changes.entries,
        (F.state.balances.of p.1).sameValue p.2.before = true := by
      rw [← hmir.state, ← l.agreed]
      exact sameValue_of_not_stale (by simp [hstale])
    have hsound : Entry.IsSound ⟨.begin, tx, payloadHash tx c.intentHash δ, host.clock 0⟩ :=
      ⟨(checkTx_ok htx).1, (checkTx_ok htx).2, utf8ByteSize_textDigest_le _⟩
    exact safely_beginAndApply hs hF hmir (hidle hserve) hsound rfl hconserves hfresh rfl crash
      hrefused

end Layer
end LedgerGate

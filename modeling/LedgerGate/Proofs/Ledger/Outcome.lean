import LedgerGate.Proofs.Ledger.Commit
import LedgerGate.Proofs.Ledger.Founding

/-!
# Outcomes of a commit

A transaction that is said to be committed has written the delta of an approved decision over the
balances (`Layer.returns_commit`). A transaction that a layer awaits is committed if its delta
conserves and is not stale, and then the layer awaits those that are to follow
(`Layer.run_commit`).
-/

namespace LedgerGate.Layer

open Ledger
open Log (Entry)

variable {l : Layer} {b : Entry} {time : UInt64} {δ : Delta}

/-! ## What was committed -/

theorem state_noted (l : Layer) (log : Log.File) (e : Entry) : (l.noted log e).state = l.state := by
  unfold noted
  split <;> rfl

theorem returns_logStep (l : Layer) (e : Entry) :
    (l.logStep e).Returns fun l' => l'.state = l.state := by
  unfold logStep
  split
  · exact Job.returns_fail
  · exact (Job.returns_true _).bind fun log _ => Job.returns_pure (state_noted l log e)

theorem returns_compact (l : Layer) :
    l.compact.Returns fun p => p.1.state = l.state ∧ p.2 = l.endedInLog * 2 := by
  have hlast : (do
      let log ← l.log.replaceAll l.begun
      return ({ l with log := log, unretired := [], endedInLog := 0 }, l.endedInLog * 2) :
        Job (Layer × Nat)).Returns fun p => p.1.state = l.state ∧ p.2 = l.endedInLog * 2 :=
    (Job.returns_true _).bind fun _ _ => Job.returns_pure ⟨rfl, rfl⟩
  unfold compact
  split
  · exact (Job.returns_true _).bind fun _ _ => (Job.returns_true _).bind fun _ _ => hlast
  · exact hlast

theorem returns_compactIfDue (l : Layer) : l.compactIfDue.Returns fun r => r.1.state = l.state := by
  unfold compactIfDue
  split
  · refine Program.Returns.bind (returns_compact l) fun r hr => ?_
    cases r with
    | ok p => exact Program.returns_pure (hr p rfl).1
    | error f => exact Program.returns_pure rfl
  · exact Program.returns_pure rfl

theorem returns_finish (l : Layer) (crash : Option CrashPoint) :
    (l.finish crash).Returns fun r => r.1.state = l.state := by
  unfold finish
  split
  · exact Program.returns_pure rfl
  · exact returns_compactIfDue l

theorem returns_logEnd (l : Layer) (b : Entry) (time : UInt64) :
    (l.logEnd b time).Returns fun r => r.1.state = l.state := by
  unfold logEnd
  refine Program.Returns.bind (returns_logStep l _) fun r hr => ?_
  cases r with
  | error f => exact Program.returns_pure rfl
  | ok l' => exact Program.returns_pure (hr l' rfl)

theorem returns_logRollback (f : Fault) :
    (l.logRollback b time f).Returns fun r => r.2 ≠ .ok .committed := by
  unfold logRollback
  refine Program.Returns.bind (returns_logStep l _) fun r _ => ?_
  cases r <;> exact Program.returns_pure (by simp)

/-- A transaction that is rolled back is not said to be committed. -/
theorem returns_abort (temp : Option String) (f : Fault) :
    (l.abort b time temp f).Returns fun r => r.2 ≠ .ok .committed := by
  cases temp with
  | none => exact returns_logRollback f
  | some name =>
    rw [abort_some]
    exact Program.Returns.bind (Job.returns_true _) fun _ _ => returns_logRollback f

/-- Where a transaction leads that is said to be committed. -/
def LeadsTo (next : State) (r : Committed) : Prop := r.2 = .ok .committed → r.1.state = next

theorem returns_install {next : State} (crash : Option CrashPoint) :
    (l.install b time next crash).Returns (LeadsTo next) := by
  unfold install
  refine Program.Returns.bind (Job.returns_true _) fun r _ => ?_
  cases r with
  | error f => exact (returns_abort _ f).mono fun _ hr hok => absurd hok hr
  | ok u =>
    refine Program.Returns.bind (Job.returns_true _) fun r _ => ?_
    cases r with
    | error f => exact Program.returns_pure nofun
    | ok u =>
      show Program.Returns (ite _ _ _) _
      split
      · exact Program.returns_pure nofun
      · exact (returns_logEnd _ b time).mono fun r hr _ => hr

/-- Whether a transaction that is said to be committed has applied its delta. -/
def Applies (s : State) (δ : Delta) (r : Committed) : Prop :=
  r.2 = .ok .committed → r.1.balances = State.writeChanges s.balances δ.changes.entries

theorem returns_applyBegun (intentHash : String) (crash : Option CrashPoint) :
    (l.applyBegun b time intentHash δ crash).Returns (Applies l.state δ) := by
  unfold applyBegun
  split
  · exact (returns_abort none _).mono fun _ hr hok => absurd hok hr
  · next next hnext =>
    split
    · exact Program.returns_pure nofun
    · refine Program.Returns.bind (Job.returns_true _) fun r _ => ?_
      cases r with
      | error f => exact (returns_abort _ f).mono fun _ hr hok => absurd hok hr
      | ok u =>
        show Program.Returns (ite _ _ _) _
        split
        · exact Program.returns_pure nofun
        · refine (returns_install crash).mono fun r hr hok => ?_
          rw [agreed, hr hok, State.balances_applied hnext]

theorem returns_beginAndApply (intentHash : String) (crash : Option CrashPoint) :
    (l.beginAndApply b time intentHash δ crash).Returns (Applies l.state δ) := by
  unfold beginAndApply
  refine Program.Returns.bind (returns_logStep l b) fun r hr => ?_
  cases r with
  | error f => exact Program.returns_pure nofun
  | ok l' =>
    show Program.Returns (ite _ _ _) _
    split
    · exact Program.returns_pure nofun
    · rw [← hr l' rfl]
      refine Program.Returns.bind (returns_applyBegun intentHash crash) fun c hc => ?_
      obtain ⟨l'', r⟩ := c
      match r, hc with
      | .ok .committed, hc =>
        refine (returns_finish l'' crash).mono fun c hstate _ => ?_
        rw [c.1.agreed, hstate, ← l''.agreed]
        exact hc rfl
      | .ok .discarded, hc | .error f, hc => exact Program.returns_pure hc

/-- A commit that is said to be committed has written the delta of an approved decision, which
was not stale. -/
theorem returns_commit (tx : String) (c : Consensus) (host : Host) (crash : Option CrashPoint) :
    (l.commit tx c host crash).Returns fun r => r.2 = .ok .committed →
      ∃ δ, c.approved = true ∧ c.delta = some δ ∧ l.isStale δ = false ∧
        r.1.balances = State.writeChanges l.balances δ.changes.entries := by
  obtain ⟨r, hr, hcommit⟩ | ⟨δ, hadmission, hstale⟩ := l.commit_cases tx c host crash
  · rw [hcommit]
    exact Program.returns_pure fun hok => absurd hok hr
  · rw [commit_of_admission hadmission hstale]
    obtain ⟨-, -, hc⟩ := admission_eq_some_iff.mp hadmission
    obtain ⟨happroved, hδ, -⟩ := Consensus.committable?_eq_some hc
    exact (returns_beginAndApply _ crash).mono fun r hr hok =>
      ⟨δ, happroved, hδ, hstale, l.agreed.symm ▸ hr hok⟩

end LedgerGate.Layer

/-! ## What will be committed -/

namespace LedgerGate.Ledger

/-- Whether a disk holds a state file, and no temporary file but perhaps one of a given name. -/
structure Tidy (spare : Option String) (d : Disk) : Prop where
  base : d.hasBase = true
  state : ∃ i c, d.nodes.get? stateName = some (.file i c)
  noTemps : ∀ name, isTempName name = true → some name ≠ spare → d.nodes.get? name = none

variable {spare : Option String} {temp : String} {d : Disk}

theorem ne_stateName_of_isTempName {name : String} (h : isTempName name = true) :
    name ≠ stateName := by
  rintro rfl
  exact absurd h (by decide)

theorem Tidy.append (h : Tidy spare d) (i : Nat) (bytes : List UInt8) :
    Tidy spare (d.append i bytes) := by
  constructor
  · exact h.base
  · exact Disk.exists_file_append i bytes h.state
  · intro name hname hspare
    rw [Disk.get?_append, h.noTemps name hname hspare]
    rfl

/-- A temporary file can be created where there is none. -/
theorem Tidy.create (h : Tidy none d) (htemp : isTempName temp = true) : ∃ i e,
    d.create temp = .ok (i, e) ∧ e.nodes.get? temp = some (.file i []) ∧
      Tidy (some temp) e := by
  have hfree : d.nodes.get? temp = none := h.noTemps temp htemp nofun
  have hne := ne_stateName_of_isTempName htemp
  refine ⟨d.nextId, { d with
    nodes := d.nodes.insert temp (.file d.nextId []), nextId := d.nextId + 1 }, ?_, ?_, ?_⟩
  · rw [Disk.create, hfree]
    exact if_pos h.base
  · simp
  · constructor
    · exact h.base
    · simpa [hne] using h.state
    · intro name hname hspare
      have hother : temp ≠ name := fun he => hspare (congrArg some he.symm)
      simpa [hother] using h.noTemps name hname nofun

/-- A temporary file can be renamed over the state file. -/
theorem Tidy.rename (h : Tidy (some temp) d)
    (hfile : ∃ i c, d.nodes.get? temp = some (.file i c)) : ∃ e,
    d.rename temp stateName = .ok e ∧ Tidy none e := by
  obtain ⟨i, c, hfile⟩ := hfile
  obtain ⟨j, c', hstate⟩ := h.state
  obtain ⟨e, hrename⟩ := Disk.rename_ok hfile hstate
  obtain ⟨node, hnode, rfl⟩ := Disk.rename_eq_ok hrename
  obtain rfl := Option.some.inj (hnode.symm.trans hfile)
  refine ⟨_, hrename, h.base, ⟨i, c, by simp⟩, ?_⟩
  intro name hname _
  have hne : stateName ≠ name := (ne_stateName_of_isTempName hname).symm
  by_cases hother : temp = name
  · simp [hne, hother]
  · have hspare : some name ≠ some temp := fun he => hother (Option.some.inj he).symm
    simpa [hne, hother] using h.noTemps name hname hspare

theorem tidy_foundedDisk (s : State) : Tidy none (foundedDisk s) := by
  constructor
  · rfl
  · exact ⟨_, _, foundedDisk_state s⟩
  · intro name hname _
    have hstate : stateName ≠ name := (ne_stateName_of_isTempName hname).symm
    have hlog : logName ≠ name := by
      rintro rfl
      exact absurd hname (by decide)
    simp [foundedDisk, hstate, hlog]

end LedgerGate.Ledger

namespace LedgerGate.Layer

open Ledger
open Log (Entry)

/-- Whether a layer will take transactions one after another, with no compaction between them. -/
structure Awaits (l : Layer) (d : Disk) (txs : List String) : Prop where
  serves : l.fault = none
  good : ∀ tx ∈ txs, checkTx tx = .ok ()
  unused : ∀ tx ∈ txs, l.isUsed tx = false
  distinct : txs.Nodup
  room : l.endedInLog + txs.length < l.compactionThreshold
  version : l.state.version + txs.length ≤ State.maxVersion
  tidy : Tidy none d

variable {l : Layer} {b : Entry} {time : UInt64} {δ : Delta} {d : Disk} {next : State}
  {c : Consensus}
  {tx intentHash : String} {rest : List String}

/-- The ledger of two accounts awaits transactions when it was just opened. -/
theorem awaits_twoLayer (dir : String) {threshold : Nat} {txs : List String}
    (hgood : ∀ tx ∈ txs, checkTx tx = .ok ()) (hdistinct : txs.Nodup)
    (hroom : txs.length < threshold) (hversion : txs.length ≤ State.maxVersion) :
    (twoLayer dir threshold).Awaits (foundedDisk twoState) txs where
  serves := rfl
  good := hgood
  unused := fun _ _ => rfl
  distinct := hdistinct
  room := (Nat.zero_add txs.length).symm ▸ hroom
  version := (Nat.zero_add txs.length).symm ▸ hversion
  tidy := tidy_foundedDisk twoState

/-- An entry uses no identifier but its own. -/
theorem isUsed_noted {log : Log.File} {e : Entry} {t : String} (h : l.isUsed t = false)
    (hne : t ≠ e.tx) : (l.noted log e).isUsed t = false := by
  simp only [isUsed, isBegun, Bool.or_eq_false_iff] at h ⊢
  obtain ⟨hbegun, hended⟩ := h
  unfold noted
  split
  · exact ⟨by simpa [hne.symm] using hbegun, hended⟩
  · constructor
    · refine List.any_eq_false.mpr fun x hx => ?_
      exact List.any_eq_false.mp hbegun x (List.mem_of_mem_filter hx)
    · simpa [hne] using hended

/-- A step that the transaction may take is logged. -/
theorem run_logStep_eq {e : Entry} (h : l.refuseStep e.op e.tx = none) :
    (l.logStep e).run.run d =
      (.ok (l.noted { l.log with length := l.log.length + e.bytes.length } e),
        d.append l.log.id e.bytes) := by
  have happend : (l.log.append e).run.run d =
      (.ok { l.log with length := l.log.length + e.bytes.length }, d.append l.log.id e.bytes) := by
    refine (Job.run_bind_ok (Job.run_perform_ok (.append l.log.id e.bytes) (a := ()) rfl)).trans ?_
    exact (Job.run_bind_ok (Job.run_perform_ok (.syncFile l.log.id) (a := ()) rfl)).trans rfl
  unfold logStep
  rw [h]
  exact (Job.run_bind_ok happend).trans rfl

theorem run_logStep {e : Entry} (h : l.refuseStep e.op e.tx = none) :
    ∃ log, (l.logStep e).run.run d = (.ok (l.noted log e), d.append l.log.id e.bytes) :=
  ⟨_, run_logStep_eq h⟩

theorem run_logEnd (hbegun : l.isBegun b.tx = true) : ∃ log bytes,
    (l.logEnd b time).run d = ((l.noted log (b.ending .commit time), .ok .committed),
      d.append l.log.id bytes) := by
  obtain ⟨log, hlog⟩ := run_logStep (l := l) (d := d) (e := b.ending .commit time)
    (by simp [refuseStep, hbegun])
  refine ⟨log, Entry.bytes (b.ending .commit time), ?_⟩
  unfold logEnd
  rw [Job.run_run_bind_ok hlog]
  rfl

/-- A state that can be renamed over the state file is put there. What follows is the line of the
end, if the commit is not to stop before it. -/
theorem run_install {e : Disk} (next : State) (crash : Option CrashPoint)
    (hrename : d.rename (tempName b.tx) stateName = .ok e) (hbase : e.hasBase = true) :
    (l.install b time next crash).run d =
      (if crash = some .renamed then pure ((l.follow next).crashed .renamed)
        else (l.follow next).logEnd b time : Program Committed).run e := by
  have hcheck : e.checkBase = .ok () := if_pos hbase
  unfold install
  rw [Job.run_run_bind_ok (Job.run_perform_ok (.rename _ _) (congrArg (FileOp.changed d) hrename))]
  exact Job.run_run_bind_ok (Job.run_perform_ok .syncNames (congrArg (·, e) hcheck))

/-- The next state is made and written, and goes over the state file, if the commit is not to stop
before. -/
theorem run_applyBegun_written {d₁ : Disk} {j : Nat} (crash : Option CrashPoint)
    (hnext : l.state.applied b.tx intentHash b.payloadHash δ = .ok next)
    (hcreate : d.create (tempName b.tx) = .ok (j, d₁))
    (happlied : crash ≠ some .stateApplied) (htemp : crash ≠ some .tempWritten) :
    (l.applyBegun b time intentHash δ crash).run d =
      (l.install b time next crash).run (d₁.append j next.bytes) := by
  have hwrite : (writeState l.dir (tempName b.tx) next).run.run d = (.ok (), _) :=
    Log.File.run_writeWhole hcreate
  unfold applyBegun
  rw [hnext]
  dsimp only
  rw [if_neg happlied, Job.run_run_bind_ok hwrite]
  dsimp only
  rw [if_neg htemp]

/-- A transaction that has begun is committed if its state can be written and renamed. -/
theorem run_applyBegun_of_create {d₁ e : Disk} {j : Nat} (hbegun : l.isBegun b.tx = true)
    (hnext : l.state.applied b.tx intentHash b.payloadHash δ = .ok next)
    (hcreate : d.create (tempName b.tx) = .ok (j, d₁))
    (hrename : (d₁.append j next.bytes).rename (tempName b.tx) stateName = .ok e)
    (hbase : e.hasBase = true) : ∃ log bytes, (l.applyBegun b time intentHash δ none).run d =
      (((l.follow next).noted log (b.ending .commit time), .ok .committed),
        e.append l.log.id bytes) := by
  obtain ⟨log, bytes, hend⟩ := run_logEnd (l := l.follow next) (d := e) (b := b) hbegun
  refine ⟨log, bytes, ?_⟩
  rw [run_applyBegun_written none hnext hcreate nofun nofun, run_install next none hrename hbase,
    if_neg nofun]
  exact hend

/-- On a tidy disk the next state can be written and renamed. -/
theorem exists_renamed (next : State) (b : Entry) (htidy : Tidy none d) : ∃ j d₁ e,
    d.create (tempName b.tx) = .ok (j, d₁) ∧
    (d₁.append j next.bytes).rename (tempName b.tx) stateName = .ok e ∧ Tidy none e := by
  obtain ⟨j, d₁, hcreate, hempty, hspare⟩ := htidy.create (isTempName_tempName b.tx)
  obtain ⟨e, hrename, htidy'⟩ := (hspare.append j next.bytes).rename
    ⟨j, _, Disk.get?_append_self next.bytes hempty⟩
  exact ⟨j, d₁, e, hcreate, hrename, htidy'⟩

theorem run_applyBegun (time : UInt64) (intentHash : String) (δ : Delta)
    (hbegun : l.isBegun b.tx = true) (hversion : l.state.version < State.maxVersion)
    (htidy : Tidy none d) : ∃ next log e,
    l.state.applied b.tx intentHash b.payloadHash δ = .ok next ∧
    (l.applyBegun b time intentHash δ none).run d =
      (((l.follow next).noted log (b.ending .commit time), .ok .committed), e) ∧
    Tidy none e := by
  obtain ⟨next, hnext⟩ : ∃ next, l.state.applied b.tx intentHash b.payloadHash δ = .ok next :=
    State.exists_applied hversion
  obtain ⟨j, d₁, e, hcreate, hrename, htidy'⟩ := exists_renamed next b htidy
  obtain ⟨log, bytes, hrun⟩ :=
    run_applyBegun_of_create hbegun hnext hcreate hrename htidy'.base
  exact ⟨next, log, _, hnext, hrun, htidy'.append _ bytes⟩

/-- The layer when a transaction has begun and was committed, and the log was not compacted. -/
def concluded (l : Layer) (b : Entry) (time : UInt64) (next : State) (log log' : Log.File) :
    Layer :=
  ((l.noted log b).follow next).noted log' (b.ending .commit time)

@[simp] theorem state_concluded (log log' : Log.File) :
    (l.concluded b time next log log').state = next := state_noted _ _ _

/-- The end of the transaction is in the log, and is still to be retired. -/
theorem ended_concluded (log log' : Log.File) (hop : b.op = .begin) :
    (l.concluded b time next log log').endedInLog = l.endedInLog + 1 ∧
      (l.concluded b time next log log').unretired = l.unretired ++ [b.ending .commit time] := by
  have hnoted : l.noted log b = { l with log := log, begun := l.begun ++ [b] } := if_pos hop
  rw [concluded, hnoted]
  exact ⟨rfl, rfl⟩

/-- When the first of the transactions that a layer awaits has ended, it awaits the others. -/
theorem Awaits.ended {e : Disk} (h : l.Awaits d (b.tx :: rest)) (log log' : Log.File)
    (hop : b.op = .begin) (hnext : next.version = l.state.version + 1) (htidy : Tidy none e) :
    (l.concluded b time next log log').Awaits e rest := by
  have hroom := h.room
  have hversion := h.version
  rw [List.length_cons] at hroom hversion
  have hnoted : l.noted log b = { l with log := log, begun := l.begun ++ [b] } := if_pos hop
  obtain ⟨hfirst, hdistinct⟩ := List.nodup_cons.mp h.distinct
  constructor
  · rw [concluded, hnoted]
    exact h.serves
  · intro t ht
    exact h.good t (List.mem_cons_of_mem _ ht)
  · intro t ht
    have hne : t ≠ b.tx := fun he => hfirst (he ▸ ht)
    have hbegin : (l.noted log b).isUsed t = false :=
      isUsed_noted (h.unused t (List.mem_cons_of_mem _ ht)) hne
    exact isUsed_noted hbegin hne
  · exact hdistinct
  · rw [concluded, hnoted]
    show l.endedInLog + 1 + rest.length < l.compactionThreshold
    omega
  · rw [state_concluded]
    show next.version + rest.length ≤ State.maxVersion
    omega
  · exact htidy

/-- When the beginning of a transaction is in the log, its delta is applied. If it was committed,
the last section follows. -/
theorem run_beginAndApply_eq {l₁ l₂ : Layer} {d₁ d₂ : Disk} {r : Except Fault Outcome}
    (hlog : (l.logStep b).run.run d = (.ok l₁, d₁))
    (happly : (l₁.applyBegun b time intentHash δ none).run d₁ = ((l₂, r), d₂)) :
    (l.beginAndApply b time intentHash δ none).run d =
      if r = .ok .committed then (l₂.finish none).run d₂ else ((l₂, r), d₂) := by
  unfold beginAndApply
  rw [Job.run_run_bind_ok hlog]
  show (applyBegun _ b time intentHash δ none >>= _ : Program Committed).run _ = _
  rw [Program.run_bind, happly]
  match r with
  | .ok .committed => rfl
  | .ok .discarded | .error f => rfl

theorem run_finish (h : l.endedInLog < l.compactionThreshold) :
    (l.finish none).run d = ((l, .ok .committed), d) := by
  rw [finish, if_neg nofun, compactIfDue, if_neg (Nat.not_le.mpr h)]
  rfl

/-- The first of the transactions that a layer awaits is applied, and the layer goes on to await
the others. -/
theorem run_beginAndApply (hop : b.op = .begin) (h : l.Awaits d (b.tx :: rest)) :
    ∃ next log log' e, l.state.applied b.tx intentHash b.payloadHash δ = .ok next ∧
      (l.beginAndApply b time intentHash δ none).run d =
        ((l.concluded b time next log log', .ok .committed), e) ∧
      (l.concluded b time next log log').Awaits e rest := by
  have hroom := h.room
  have hversion := h.version
  rw [List.length_cons] at hroom hversion
  have hnew : l.isUsed b.tx = false := h.unused b.tx List.mem_cons_self
  obtain ⟨log, hlog⟩ := run_logStep (l := l) (d := d) (e := b)
    (by simp [refuseStep, hop, hnew, Log.Op.isTerminal])
  have hnoted : l.noted log b = { l with log := log, begun := l.begun ++ [b] } := if_pos hop
  have hbegun : (l.noted log b).isBegun b.tx = true := by simp [hnoted, isBegun]
  obtain ⟨next, log', e, hnext, hrun, htidy⟩ := run_applyBegun time intentHash δ hbegun
    (by simp only [hnoted]; omega) (h.tidy.append l.log.id b.bytes)
  rw [state_noted] at hnext
  have hended : (l.concluded b time next log log').Awaits e rest :=
    h.ended log log' hop (State.version_applied hnext).1 htidy
  have hdue : (l.concluded b time next log log').endedInLog <
      (l.concluded b time next log log').compactionThreshold :=
    (Nat.le_add_right _ _).trans_lt hended.room
  have happlied := run_beginAndApply_eq hlog hrun
  rw [if_pos rfl, ← concluded, run_finish hdue] at happlied
  exact ⟨next, log, log', e, hnext, happlied, hended⟩

theorem isStale_eq_false (h : ∀ p ∈ δ.changes.entries, p.2.before = l.balances.of p.1) :
    l.isStale δ = false := by
  refine List.any_eq_false.mpr fun p hp => ?_
  rw [h p hp, l.agreed, Decimal.sameValue_self]
  exact Bool.false_ne_true

/-- A decision that may be applied is committed if its delta is not stale and the layer awaits
the transaction. -/
theorem run_commit (host : Host) (h : l.Awaits d (tx :: rest)) (hc : c.committable? = some δ)
    (hstale : l.isStale δ = false) : ∃ next log log' e l',
    l.state.applied tx c.intentHash (payloadHash tx c.intentHash δ) δ = .ok next ∧
      l' = l.concluded ⟨.begin, tx, payloadHash tx c.intentHash δ, host.clock 0⟩ (host.clock 1) next
        log log' ∧
      (l.commit tx c host none).run d = ((l', .ok .committed), e) ∧ l'.Awaits e rest := by
  have hadmission : l.admission tx c = .ok (some δ) :=
    admission_eq_some_iff.mpr ⟨h.good tx List.mem_cons_self, h.serves, hc⟩
  rw [commit_of_admission hadmission hstale]
  obtain ⟨next, log, log', e, hnext, hrun, hrest⟩ :=
    run_beginAndApply (b := ⟨.begin, tx, payloadHash tx c.intentHash δ, host.clock 0⟩) rfl h
  exact ⟨next, log, log', e, _, hnext, rfl, hrun, hrest⟩

end LedgerGate.Layer

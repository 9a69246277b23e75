import LedgerGate.Proofs.Ledger.Admission
import LedgerGate.Proofs.Ledger.Tampering
import LedgerGate.Proofs.Ledger.Trailing

/-!
# What a commit comes to

Of a ledger that is open, a decision is committed exactly if it is admitted and there is another
version to come. A decision that is not admitted leaves everything as it is; if it is only the
version that is in the way, the log has the beginning and the end of the transaction more, and its
identifier is used (`Ledger.outcome_of_commit`).
-/

namespace LedgerGate

open Ledger
open Log (Entry pathOf)
open Recovery (Hindered unseen)

namespace Layer

variable {l : Layer} {tx : String} {c : Consensus} {δ : Delta} {b : Entry} {time : UInt64}
  {d : Disk} {i : Nat} {F : Files}

/-! ## Transactions for which there is no version -/

theorem fault_noted (l : Layer) (log : Log.File) (e : Entry) : (l.noted log e).fault = l.fault := by
  unfold noted
  split <;> rfl

theorem isBegun_noted {log : Log.File} (hop : b.op = .begin) :
    (l.noted log b).isBegun b.tx = true := by
  simp [noted, hop, isBegun]

theorem run_logRollback (hbegun : l.isBegun b.tx = true) (f : Fault) : ∃ log,
    (l.logRollback b time f).run d = ((l.noted log (b.ending .rollback time), .error f),
      d.append l.log.id ((b.ending .rollback time).bytes)) := by
  obtain ⟨log, hlog⟩ := run_logStep (l := l) (d := d) (e := b.ending .rollback time)
    (by simp [refuseStep, hbegun])
  refine ⟨log, ?_⟩
  unfold logRollback
  rw [Job.run_run_bind_ok hlog]
  rfl

/-- What a transaction leaves that was rolled back before anything was written for it: its beginning
and its end are in the log, and its identifier is used. -/
structure RolledBack (l : Layer) (b : Entry) (time : UInt64) (d : Disk) (l' : Layer) (d' : Disk) :
    Prop where
  state : l'.state = l.state
  balances : l'.balances = l.balances
  fault : l'.fault = l.fault
  used : ∀ t, l'.isUsed t = true ↔ l.isUsed t = true ∨ t = b.tx
  log : ∃ c, d.content? logName = some c ∧
    d'.content? logName = some (c ++ b.bytes ++ (b.ending .rollback time).bytes)
  others : Disk.SameBut logName d d'

/-- The beginning and the end of a transaction, one after the other. -/
theorem rolledBack_of_noted (hs : Stores d i F) (log log' : Log.File) :
    l.RolledBack b time d ((l.noted log b).noted log' (b.ending .rollback time))
      ((d.append i b.bytes).append i ((b.ending .rollback time).bytes)) := by
  have hsound : (d.append i b.bytes).Sound := hs.sound.append _ _
  have hcontent := Disk.get?_append_self b.bytes hs.log
  have hstate : ((l.noted log b).noted log' (b.ending .rollback time)).state = l.state := by
    rw [state_noted, state_noted]
  refine ⟨hstate, ?_, ?_, fun t => ?_, ⟨_, content?_of_get? hs.log, ?_⟩, fun n hn => ?_⟩
  · rw [agreed, hstate, ← l.agreed]
  · rw [fault_noted, fault_noted]
  · rw [isUsed_noted_iff, isUsed_noted_iff, Entry.tx_ending, or_assoc, or_self_iff]
  · exact content?_of_get? (Disk.get?_append_self _ hcontent)
  · exact (hsound.sameBut_append _ hcontent n hn).trans (hs.sound.sameBut_append _ hs.log n hn)

/-- Where the version can be no higher, a transaction is rolled back as soon as it has begun. -/
theorem run_beginAndApply_full (hs : Stores d i F) (hmir : l.Mirrors i F) (hop : b.op = .begin)
    (hnew : l.isUsed b.tx = false) (hfull : State.maxVersion ≤ l.state.version)
    (intentHash : String) (δ : Delta) : ∃ l' f d',
    (l.beginAndApply b time intentHash δ none).run d = ((l', .error f), d') ∧
      l.RolledBack b time d l' d' := by
  have hlog := run_logStep_eq (l := l) (e := b) (d := d)
    (by rw [hop, refuseStep_begin, hnew, if_neg Bool.false_ne_true])
  rw [hmir.id] at hlog
  generalize hlog₁ : { l.log with length := l.log.length + b.bytes.length } = log at hlog
  have hid : log.id = i := hlog₁ ▸ hmir.id
  have hid₁ : (l.noted log b).log.id = i := by
    rw [noted, if_pos hop]
    exact hid
  have happlied : (l.noted log b).state.applied b.tx intentHash b.payloadHash δ =
      .error (.overflow "ledger version") := by
    rw [State.applied, state_noted, if_pos hfull]
  have happly : ((l.noted log b).applyBegun b time intentHash δ none).run (d.append i b.bytes) =
      ((l.noted log b).logRollback b time (.overflow "ledger version")).run
        (d.append i b.bytes) := by
    rw [applyBegun, happlied]
    rfl
  obtain ⟨log', hrollback⟩ := run_logRollback (d := d.append i b.bytes) (isBegun_noted hop)
    (.overflow "ledger version")
  rw [hrollback, hid₁] at happly
  have hrun := run_beginAndApply_eq hlog happly
  simp only [reduceCtorEq, if_false] at hrun
  exact ⟨_, _, _, hrun, rolledBack_of_noted hs log log'⟩

/-! ## Transactions for which there is one -/

/-- Whether no directory is in the way of a temporary file. -/
def Unhindered (_ : Unit) (F : Files) : Prop := ¬ Hindered F

instance : Noting unseen Unhindered where
  look _ := rfl

instance : Lasting Unhindered where
  repair _ hF hr := by
    rw [Unhindered, Hindered, hr.blocked]
    exact hF

instance : Recording unseen Unhindered δ where
  change _ hF hc := by
    rw [Unhindered, Hindered, hc.blocked]
    exact hF

/-- The name of the temporary file of a transaction is that of something in the base itself. -/
theorem isDirect_tempName (htx : isTx tx = true) : Disk.isDirect (tempName tx) = true := by
  have hchars : ∀ c ∈ tx.toList, isTxChar c = true := by
    simp only [isTx, Bool.and_eq_true] at htx
    exact List.all_eq_true.mp htx.2
  -- A slash would make it the name of something in another directory.
  have hslash : '/' ∉ tx.toList := fun h => absurd (hchars _ h) (by decide)
  simp [Disk.isDirect, tempName, stateName, hslash]

/-- The new state of a transaction can be written beside the state file and renamed over it. -/
theorem exists_replaced (hs : Stores d i F) (hfree : ¬ Hindered F) (htx : isTx tx = true)
    (next : State) : ∃ j d₁ e, d.create (tempName tx) = .ok (j, d₁) ∧
      (d₁.append j next.bytes).rename (tempName tx) stateName = .ok e ∧ e.hasBase = true := by
  have htemp := isTempName_tempName tx
  have hclear : d.nodes.get? (tempName tx) ≠ some .directory := fun hdir =>
    hfree ⟨_, htemp, isDirect_tempName htx, (hs.blocked _ htemp).mp hdir⟩
  obtain ⟨j, d₁, hcreate⟩ : ∃ j d₁, d.create (tempName tx) = .ok (j, d₁) := by
    cases hr : d.create (tempName tx) with
    | ok p => exact ⟨p.1, p.2, rfl⟩
    | error f => exact absurd ((Disk.create_error_iff hs.hasBase).mp ⟨f, hr⟩) hclear
  have hwritten : (d₁.append j next.bytes).nodes.get? (tempName tx) =
      some (.file j next.bytes) := by
    rw [Disk.get?_append_self _ (hs.sound.opened_create hcreate).content, List.nil_append]
  obtain ⟨e, hrename, hs₂⟩ :=
    ((hs.createTemp htemp hcreate).2 next.bytes).renameState htemp hwritten
  exact ⟨j, d₁, e, hcreate, hrename, hs₂.hasBase⟩

/-- A transaction that has begun is committed if there is a version for it. -/
theorem Underway.run_applyBegun (hu : Underway Unhindered () d i F l b) (htx : isTx b.tx = true)
    (hversion : l.state.version < State.maxVersion) (intentHash : String) (δ : Delta) :
    ∃ l' d', (l.applyBegun b time intentHash δ none).run d = ((l', .ok .committed), d') := by
  obtain ⟨next, hnext⟩ : ∃ next, l.state.applied b.tx intentHash b.payloadHash δ = .ok next :=
    State.exists_applied hversion
  obtain ⟨j, d₁, e, hcreate, hrename, hbase⟩ :=
    exists_replaced hu.stores hu.coherent.fits htx next
  have hbegun : l.isBegun b.tx = true := by simp [isBegun, hu.begun]
  obtain ⟨log, bytes, hrun⟩ := run_applyBegun_of_create hbegun hnext hcreate hrename hbase
  exact ⟨_, _, hrun⟩

/-- A transaction that has ended is said to be committed, also when the log is compacted then. -/
theorem exists_run_finish (hs : Stores d i F) (hF : F.Legible) (hmir : l.Mirrors i F)
    (hfree : ¬ Hindered F) : ∃ l' d', (l.finish none).run d = ((l', .ok .committed), d') := by
  rw [finish, if_neg (Option.some_ne_none _).symm, compactIfDue]
  split
  · obtain ⟨l', n, d', -, hrun, -⟩ := Recovery.exists_compact hs hF hmir hfree
    rw [Job.run_run_bind_ok hrun]
    exact ⟨l', d', rfl⟩
  · exact ⟨l, d, rfl⟩

/-- A transaction of a new identifier is committed if there is a version for it. -/
theorem run_beginAndApply_next (hs : Stores d i F) (hF : F.Coherent Unhindered ())
    (hmir : l.Mirrors i F) (hidle : l.begun = []) (hb : b.IsSound) (hop : b.op = .begin)
    (htx : isTx b.tx = true) (hnew : l.isUsed b.tx = false)
    (hversion : l.state.version < State.maxVersion) (hconserves : δ.conserves = .ok ())
    (hfresh : ∀ p ∈ δ.changes.entries, (F.state.balances.of p.1).sameValue p.2.before = true)
    {intentHash : String} (hpayload : b.payloadHash = payloadHash b.tx intentHash δ) :
    ∃ l' d', (l.beginAndApply b time intentHash δ none).run d = ((l', .ok .committed), d') := by
  have hunknown : b.tx ∉ F.ids := fun hmem => by
    rw [hmir.isUsed_iff.mpr hmem] at hnew
    exact absurd hnew nofun
  have hlog := run_logStep_eq (l := l) (e := b) (d := d)
    (by rw [hop, refuseStep_begin, hnew, if_neg Bool.false_ne_true])
  have hF' : Files.Coherent Unhindered (unseen () (F.log ++ [b])) { F with log := F.log ++ [b] } :=
    hF.change (δ := δ) (.begin hb hop hunknown)
  have hu : Underway Unhindered () (d.append l.log.id b.bytes) i { F with log := F.log ++ [b] }
      (l.noted { l.log with length := l.log.length + b.bytes.length } b) b := by
    rw [hmir.id]
    exact underway_noted (hs.appendEntry hmir.logTail b) hF' hmir hidle hb hop hunknown hmir.id
      hmir.name
  obtain ⟨l₂, d₂, happly⟩ := hu.run_applyBegun htx (by rwa [state_noted]) intentHash δ
  have hrun := run_beginAndApply_eq hlog happly
  rw [if_pos rfl] at hrun
  -- The run says what the answer is; what the files are then, which the compaction that may follow
  -- goes by, is known from the safety of the same run.
  have hkeeps : SafelyRuns unseen Unhindered (applyBegun _ b time intentHash δ none) _ () _ :=
    hu.safely_applyBegun (fun u hundo heq => hunknown (heq ▸ hF.undo_known u hundo)) hconserves
      hfresh hpayload none
  obtain ⟨ds, he⟩ := Execution.exists_of_run happly
  obtain ⟨j, F₂, hs₂, hF₂, hmir₂, -⟩ :=
    (he.keeps ⟨_, _, hu.stores, hu.coherent⟩ hkeeps).2 _ rfl
  obtain ⟨l', d', hfinish⟩ := exists_run_finish hs₂ hF₂.toLegible hmir₂ hF₂.fits
  exact ⟨l', d', hrun.trans hfinish⟩

/-- A transaction that is admitted is committed if there is a version for it. -/
theorem Admits.run_beginAndApply {host : Host} (h : l.Admits tx c δ) (hs : Stores d i F)
    (hF : F.Coherent Unhindered ()) (hmir : l.Mirrors i F) (hidle : l.begun = [])
    (hversion : l.state.version < State.maxVersion) : ∃ l' d',
    (l.beginAndApply (beginning tx c δ host) (host.clock 1) c.intentHash δ none).run d =
      ((l', .ok .committed), d') := by
  obtain ⟨hcommittable, hcurrent⟩ := allows_iff.mp h.allows
  obtain ⟨-, -, hconserves⟩ := Consensus.committable?_eq_some hcommittable
  have hfresh : ∀ p ∈ δ.changes.entries, (F.state.balances.of p.1).sameValue p.2.before = true := by
    rw [← hmir.state, ← l.agreed]
    exact sameValue_of_not_stale (by simp [hcurrent])
  exact run_beginAndApply_next hs hF hmir hidle (h.isSound host) rfl h.good h.unused hversion
    hconserves hfresh rfl

end Layer

/-! ## The outcome -/

namespace Ledger

variable {dir : String} {b : Balances} {start : Disk} {past : List Disk} {w : World} {l : Layer}

/-- Whether an open ledger may commit a decision, but for its version: the identifier is good and
was never begun in the log, and the decision allows its delta on the balances. -/
structure Acceptable (past : List Disk) (l : Layer) (tx : String) (c : Consensus) : Prop where
  good : isTx tx = true
  unbegun : ∀ d ∈ past, tx ∉ begunIn (logEntries d)
  allowed : ∃ δ, c.Allows l.balances δ

/-- What a ledger may commit, its layer admits. -/
theorem Story.acceptable_iff (hS : Story dir b start past w) (hl : w.layer = some l) {tx : String}
    {c : Consensus} : Acceptable past l tx c ↔ ∃ δ, l.Admits tx c δ := by
  have hunused : l.isUsed tx = false ↔ ∀ d ∈ past, tx ∉ begunIn (logEntries d) := by
    rw [← Bool.not_eq_true, hS.isUsed_iff hl]
    push Not
    rfl
  constructor
  · rintro ⟨hgood, hunbegun, δ, hallows⟩
    exact ⟨δ, hgood, hunused.mpr hunbegun, hallows⟩
  · rintro ⟨δ, hgood, hnew, hallows⟩
    exact ⟨hgood, hunused.mp hnew, δ, hallows⟩

/-- A commit of a ledger that is open and serves comes to an end. The decision is committed exactly
if it is acceptable and there is another version to come. If it is not acceptable, the layer and all
files are left as they are. If it is, and there is no version for it, the transaction is rolled
back: the log has its beginning and its end more, its identifier is used, and nothing else has
changed. -/
theorem outcome_of_commit (hS : Story dir b start past w) (hl : w.layer = some l)
    (hserves : l.fault = none) (tx : String) (c : Consensus) (host : Host) : ∃ l' r d',
    (l.commit tx c host none).run w.disk = ((l', r), d') ∧
    (r = .ok .committed ↔ Acceptable past l tx c ∧ l.state.version < State.maxVersion) ∧
    (¬ Acceptable past l tx c → l' = l ∧ d' = w.disk) ∧
    (Acceptable past l tx c → State.maxVersion ≤ l.state.version →
      ∃ δ, c.delta = some δ ∧
        l.RolledBack (Layer.beginning tx c δ host) (host.clock 1) w.disk l' d') := by
  rw [hS.acceptable_iff hl]
  by_cases hadmits : ∃ δ, l.Admits tx c δ
  · have ⟨δ, h⟩ := hadmits
    obtain ⟨i, F, hs, hF, hmir, hfree, hidle⟩ := hS.run.exists_stores hl
    rw [h.commit_eq hserves]
    rcases Nat.lt_or_ge l.state.version State.maxVersion with hversion | hfull
    · obtain ⟨l', d', hrun⟩ := h.run_beginAndApply hs ⟨hF, hfree⟩ hmir (hidle hserves) hversion
      exact ⟨l', _, d', hrun, iff_of_true rfl ⟨hadmits, hversion⟩,
        fun hnot => absurd hadmits hnot, fun _ hfull => absurd hversion (Nat.not_lt.mpr hfull)⟩
    · obtain ⟨l', f, d', hrun, hrolled⟩ := Layer.run_beginAndApply_full
        (b := Layer.beginning tx c δ host) hs hmir rfl h.unused hfull c.intentHash δ
      exact ⟨l', _, d', hrun, iff_of_false nofun fun hboth => Nat.not_lt.mpr hfull hboth.2,
        fun hnot => absurd hadmits hnot, fun _ _ => ⟨δ, h.allows.delta, hrolled⟩⟩
  · obtain ⟨r, hr, hcommit⟩ := Layer.commit_of_not_admits (not_exists.mp hadmits) host none
    rw [hcommit]
    exact ⟨l, r, w.disk, rfl, iff_of_false hr fun hboth => hadmits hboth.1, fun _ => ⟨rfl, rfl⟩,
      fun hadmitted => absurd hadmitted hadmits⟩

/-- The gift is committed to a ledger of two accounts, and under an identifier that is no good,
nothing is done. -/
theorem outcome_of_commit_gift :
    (∃ l' d', ((twoLayer "data" 8).commit "t1" giftDecision ticking none).run
      (foundedDisk twoState) = ((l', .ok .committed), d')) ∧
    ∃ r, ((twoLayer "data" 8).commit ".t1" giftDecision ticking none).run (foundedDisk twoState) =
      ((twoLayer "data" 8, r), foundedDisk twoState) := by
  obtain ⟨past, hS⟩ := exists_opened
  constructor
  · obtain ⟨l', r, d', hrun, hcommitted, -⟩ :=
      outcome_of_commit hS rfl rfl "t1" giftDecision ticking
    have hadmits : (twoLayer "data" 8).Admits "t1" giftDecision gift :=
      ⟨by decide, rfl, Layer.allows_iff.mpr ⟨by decide, Layer.isStale_eq_false (by decide)⟩⟩
    rw [hcommitted.mpr ⟨(hS.acceptable_iff rfl).mpr ⟨gift, hadmits⟩, by decide⟩] at hrun
    exact ⟨l', d', hrun⟩
  · obtain ⟨l', r, d', hrun, -, hrefused, -⟩ :=
      outcome_of_commit hS rfl rfl ".t1" giftDecision ticking
    obtain ⟨rfl, rfl⟩ := hrefused fun h => absurd h.good (by decide)
    exact ⟨r, hrun⟩

end Ledger
end LedgerGate

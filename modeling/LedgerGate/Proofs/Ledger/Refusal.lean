import LedgerGate.Proofs.Ledger.Founding

/-!
# A recovery that refuses

A fault is fatal when it says that the stored ledger cannot be trusted. Recovery finds such a
fault only while it examines what is stored, and it does so by looking alone
(`Recovery.onlyLooks_examine`). Whatever fails in the repairs is a file operation
(`Recovery.raises_repair`). So a recovery with a fatal fault has touched nothing, whatever was in
the directory (`Ledger.recover_fatal`).
-/

namespace LedgerGate

/-- Whether a fault is that of a file operation. -/
def Fault.IsIo (f : Fault) : Prop := ∃ path source, f = .io path source

theorem Fault.isIo_io (path source : String) : (Fault.io path source).IsIo := ⟨path, source, rfl⟩

/-- The fault of a file operation says nothing of what is stored. -/
theorem Fault.IsIo.not_fatal {f : Fault} (h : f.IsIo) : f.isFatal = false := by
  obtain ⟨path, source, rfl⟩ := h
  rfl

namespace Log

theorem onlyLooks_replayFile (dir name : String) : (replayFile dir name).OnlyLooks := by
  unfold replayFile
  refine Job.OnlyLooks.bind (Job.onlyLooks_perform _ trivial) fun bytes => ?_
  cases replay bytes with
  | ok r => exact Job.onlyLooks_pure r
  | error c => exact Job.onlyLooks_fail _

variable {dir name : String} {bytes : List UInt8} {es : List Entry} {f : File}

theorem raises_perform_io (path : String) (op : FileOp) :
    (Job.perform path op).Raises Fault.IsIo :=
  Job.raises_perform path op (Fault.isIo_io path)

theorem File.raises_openLog : (File.openLog dir name).Raises Fault.IsIo :=
  (raises_perform_io _ _).bind fun _ => Job.raises_pure _

theorem File.raises_create : (File.create dir name).Raises Fault.IsIo :=
  (raises_perform_io _ _).bind fun _ => (raises_perform_io _ _).bind fun _ => Job.raises_pure _

theorem File.raises_openOrCreate : (File.openOrCreate dir name).Raises Fault.IsIo := by
  refine (raises_perform_io _ _).bind fun there => ?_
  split
  · exact File.raises_openLog
  · exact File.raises_create.bind fun _ => (raises_perform_io _ _).bind fun _ => Job.raises_pure _

theorem File.raises_appendBytes : (f.appendBytes bytes).Raises Fault.IsIo :=
  (raises_perform_io _ _).bind fun _ => (raises_perform_io _ _).bind fun _ => Job.raises_pure _

theorem File.raises_writeWhole : (File.writeWhole dir name bytes).Raises Fault.IsIo :=
  (raises_perform_io _ _).bind fun _ => (raises_perform_io _ _).bind fun _ => raises_perform_io _ _

theorem File.raises_replaceAll : (f.replaceAll es).Raises Fault.IsIo :=
  File.raises_writeWhole.bind fun _ => (raises_perform_io _ _).bind fun _ =>
    (raises_perform_io _ _).bind fun _ => File.raises_openLog

end Log

open Log (raises_perform_io)

/-- A compaction fails only where a file operation does. -/
theorem Layer.raises_compact (l : Layer) : l.compact.Raises Fault.IsIo := by
  have hrest : (l.log.replaceAll l.begun >>= fun log => pure
      ({ l with log := log, unretired := [], endedInLog := 0 }, l.endedInLog * 2) :
        Job (Layer × Nat)).Raises Fault.IsIo :=
    Log.File.raises_replaceAll.bind fun _ => Job.raises_pure _
  unfold Layer.compact
  split
  · exact Log.File.raises_openOrCreate.bind fun _ =>
      Log.File.raises_appendBytes.bind fun _ => hrest
  · exact hrest

namespace Recovery

variable {dir : String}

/-! ## Examining -/

theorem onlyLooks_loadState : (Ledger.loadState dir).OnlyLooks := by
  unfold Ledger.loadState
  refine Job.OnlyLooks.bind (Job.onlyLooks_attempt trivial) fun r => ?_
  split
  · exact Job.onlyLooks_fail _
  · exact Job.onlyLooks_fail _
  · exact Job.onlyLooks_ofExcept _

theorem onlyLooks_readRetired : (readRetired dir).OnlyLooks := by
  unfold readRetired
  refine Job.OnlyLooks.bind (Job.onlyLooks_perform _ trivial) fun there => ?_
  split
  · exact (Log.onlyLooks_replayFile dir _).bind fun r =>
      (Job.onlyLooks_ofExcept _).bind fun _ => Job.onlyLooks_pure _
  · exact Job.onlyLooks_pure _

/-- Nothing is changed before everything has been checked. -/
theorem onlyLooks_examine (dir : String) : (examine dir).OnlyLooks := by
  unfold examine
  refine Job.OnlyLooks.bind onlyLooks_loadState fun s => ?_
  refine Job.OnlyLooks.bind (Job.onlyLooks_perform _ trivial) fun there => ?_
  split
  · exact Job.onlyLooks_fail _
  · refine onlyLooks_readRetired.bind fun retired => ?_
    refine (Log.onlyLooks_replayFile dir _).bind fun log => ?_
    exact (Job.onlyLooks_ofExcept _).bind fun _ => Job.onlyLooks_pure _

variable {d : Disk} {s : State} {bytes : List UInt8} {log : Log.Replay}

theorem run_readRetired_missing (h : d.isThere Ledger.retiredName = false) :
    (readRetired dir).run.run d = (.ok (none, []), d) := by
  unfold readRetired
  exact (Job.run_bind_ok (Job.run_perform_ok (.isThere Ledger.retiredName)
    (congrArg (fun b => (Except.ok b, d)) h))).trans rfl

/-- Where everything can be read, the outcome of an examination is the plan. -/
theorem run_examine_read {retired : Option Log.Replay} {txs : List String}
    (hload : (Ledger.loadState dir).run.run d = (.ok s, d))
    (hthere : d.isThere Ledger.logName = true)
    (hretired : (readRetired dir).run.run d = (.ok (retired, txs), d))
    (hlog : (Log.replayFile dir Ledger.logName).run.run d = (.ok log, d)) :
    (examine dir).run.run d = ((planFor dir s txs log.records).map (⟨s, retired, log⟩, ·), d) := by
  unfold examine
  refine (Job.run_bind_ok hload).trans ?_
  refine (Job.run_bind_ok (Job.run_perform_ok (.isThere Ledger.logName)
    (congrArg (fun b => (Except.ok b, d)) hthere))).trans ?_
  refine (Job.run_bind_ok hretired).trans ?_
  refine (Job.run_bind_ok hlog).trans ?_
  cases planFor dir s txs log.records <;> rfl

/-! ## Repairing -/

theorem raises_cutTail {name : String} {tornAt : Option Nat} :
    (cutTail dir name tornAt).Raises Fault.IsIo := by
  cases tornAt with
  | none => exact Job.raises_pure _
  | some offset => exact raises_perform_io _ _

theorem raises_replaceState {label : String} {s : State} :
    (Ledger.replaceState dir label s).Raises Fault.IsIo :=
  Log.File.raises_writeWhole.bind fun _ => (raises_perform_io _ _).bind fun _ =>
    raises_perform_io _ _

theorem raises_takeBack {undo : Option Undo} {tx : String} {r : Repairs} :
    (takeBack dir undo tx r).Raises Fault.IsIo := by
  unfold takeBack
  split
  · exact Job.raises_pure _
  · split
    · exact raises_replaceState.bind fun _ => Job.raises_pure _
    · exact Job.raises_pure _

theorem raises_rollBack {clock : Nat → UInt64} {undo : Option Undo} {r : Repairs}
    {es : List Log.Entry} : (rollBack dir clock undo r es).Raises Fault.IsIo := by
  induction es generalizing clock r with
  | nil => exact Job.raises_pure _
  | cons e rest ih =>
    exact raises_takeBack.bind fun _ => Log.File.raises_appendBytes.bind fun _ => ih

theorem raises_removeFiles {names : List String} : (removeFiles dir names).Raises Fault.IsIo := by
  induction names with
  | nil => exact Job.raises_pure _
  | cons name rest ih => exact (raises_perform_io _ _).bind fun _ => ih

theorem raises_removeTempFiles {host : Host} : (removeTempFiles dir host).Raises Fault.IsIo := by
  refine (raises_perform_io _ _).bind fun names => raises_removeFiles.bind fun _ => ?_
  dsimp only
  split
  · exact (raises_perform_io _ _).bind fun _ => Job.raises_pure _
  · exact Job.raises_pure _

/-- Once all checks have passed, only file operations can fail. -/
theorem raises_repair {threshold : Nat} {host : Host} {c : Contents} {p : Plan} :
    (repair dir threshold host c p).Raises Fault.IsIo := by
  refine raises_cutTail.bind fun _ => raises_cutTail.bind fun _ => ?_
  refine Log.File.raises_openLog.bind fun log => raises_rollBack.bind fun r => ?_
  refine raises_removeTempFiles.bind fun temps => ?_
  dsimp only
  split
  · exact (Layer.raises_compact _).bind fun _ => Job.raises_pure _
  · exact Job.raises_pure _

end Recovery

namespace Ledger

open Recovery
open Log (Entry)

variable {dir : String} {threshold : Nat} {host : Host} {d d' : Disk} {f : Fault}

/-- A recovery is fatal only because of what its examination finds. -/
theorem examine_of_fatal (h : (recover dir threshold host).run.run d = (.error f, d'))
    (hf : f.isFatal = true) : (examine dir).run.run d = (.error f, d) := by
  have hlook : ((examine dir).run.run d).2 = d := (onlyLooks_examine dir).run d
  cases hexamine : (examine dir).run.run d with
  | mk r e =>
    obtain rfl : e = d := by rw [hexamine] at hlook; exact hlook
    cases r with
    | ok cp =>
      have hrun : (repair dir threshold host cp.1 cp.2).run.run e = (.error f, d') :=
        (Job.run_bind_ok hexamine).symm.trans h
      have hio : f.IsIo := raises_repair e f (by rw [hrun])
      exact absurd hf (by simp [hio.not_fatal])
    | error g =>
      have hrun := (Job.run_bind_error hexamine).symm.trans h
      obtain rfl := Except.error.inj (Prod.mk.inj hrun).1
      rfl

/-- A recovery that ends in a fatal fault has not changed anything in the directory, whatever that
holds, and neither has it at any moment on the way. -/
theorem recover_fatal (h : (recover dir threshold host).run.run d = (.error f, d'))
    (hf : f.isFatal = true) :
    d' = d ∧ ∀ ds e r, Execution (recover dir threshold host).run d ds e r →
      e = d ∧ ∀ x ∈ ds, x = d := by
  have hexamine := examine_of_fatal h hf
  refine ⟨?_, fun ds e r he => ?_⟩
  · have hrun := (Job.run_bind_error hexamine).symm.trans h
    exact (Prod.mk.inj hrun).2.symm
  · change Execution ((examine dir).run >>= ExceptT.bindCont _) d ds e r at he
    rcases he.of_bind with he | ⟨a, d₁, ds₁, ds₂, he₁, he₂, rfl⟩
    · exact Program.OnlyLooks.execution (onlyLooks_examine dir) he
    · obtain ⟨rfl, rfl⟩ := Prod.mk.inj (hexamine.symm.trans he₁.run_eq)
      obtain ⟨-, hsame⟩ := Program.OnlyLooks.execution (onlyLooks_examine dir) he₁
      -- The fault is all that the rest of the recovery gets to see.
      cases he₂ with
      | done => exact ⟨rfl, by simpa using hsame⟩
      | stop => exact ⟨rfl, by simpa using hsame⟩

/-! ## What is examined -/

section

open Log (Record Replay pathOf)

variable {s : State} {log retired : List Record}

theorem read_of_replayFile {name : String} {r : Replay} {e : Disk}
    (h : (Log.replayFile dir name).run.run d = (.ok r, e)) : ∃ bytes, d.read name = .ok bytes := by
  cases hread : d.read name with
  | ok bytes => exact ⟨bytes, rfl⟩
  | error g =>
    have hrun : (Log.replayFile dir name).run.run d =
        (.error (.io (pathOf dir name) g.message), d) := by
      unfold Log.replayFile
      exact Job.run_bind_error (Job.run_perform_error (.read name)
        (congrArg (fun r => (r, d)) hread))
    exact absurd (Prod.mk.inj (h.symm.trans hrun)).1 nofun

theorem isThere_of_read {name : String} {bytes : List UInt8} (h : d.read name = .ok bytes) :
    d.isThere name = true := by
  unfold Disk.read at h
  split at h
  · exact absurd h nofun
  · exact absurd h nofun
  · next hn => rw [Disk.isThere, Table.contains, hn]; rfl

/-- Whether this is the state that a directory holds, and these are the records of its logs. The
log of the retired may be missing. -/
structure Holds (dir : String) (d : Disk) (s : State) (log retired : List Record) : Prop where
  state : (loadState dir).run.run d = (.ok s, d)
  log : ∃ tornAt, (Log.replayFile dir logName).run.run d = (.ok ⟨log, tornAt⟩, d)
  retired : (d.isThere retiredName = false ∧ retired = []) ∨
    ∃ tornAt, (Log.replayFile dir retiredName).run.run d = (.ok ⟨retired, tornAt⟩, d)

theorem Holds.run_readRetired (h : Holds dir d s log retired) :
    ∃ o, (readRetired dir).run.run d =
      ((retiredTransactions (pathOf dir retiredName) retired).map (o, ·), d) := by
  rcases h.retired with ⟨hmissing, rfl⟩ | ⟨tornAt, hreplay⟩
  · exact ⟨none, run_readRetired_missing hmissing⟩
  · obtain ⟨bytes, hread⟩ := read_of_replayFile hreplay
    refine ⟨some ⟨retired, tornAt⟩, ?_⟩
    unfold readRetired
    refine (Job.run_bind_ok (Job.run_perform_ok (.isThere retiredName)
      (congrArg (fun b => (Except.ok b, d)) (isThere_of_read hread)))).trans ?_
    refine (Job.run_bind_ok hreplay).trans ?_
    cases retiredTransactions (pathOf dir retiredName) retired <;> rfl

/-- The checks of the records, without the files. -/
def judge (dir : String) (s : State) (log retired : List Record) : Except Fault Plan :=
  match retiredTransactions (pathOf dir retiredName) retired with
  | .error f => .error f
  | .ok txs => planFor dir s txs log

theorem Holds.run_examine (h : Holds dir d s log retired) :
    ∃ c, (examine dir).run.run d = ((judge dir s log retired).map (c, ·), d) := by
  obtain ⟨tornAt, hlog⟩ := h.log
  obtain ⟨o, hretired⟩ := h.run_readRetired
  obtain ⟨bytes, hread⟩ := read_of_replayFile hlog
  have hthere := isThere_of_read hread
  refine ⟨⟨s, o, ⟨log, tornAt⟩⟩, ?_⟩
  unfold judge
  cases htxs : retiredTransactions (pathOf dir retiredName) retired with
  | ok txs =>
    rw [htxs] at hretired
    exact run_examine_read h.state hthere hretired hlog
  | error f =>
    rw [htxs] at hretired
    unfold examine
    refine (Job.run_bind_ok h.state).trans ?_
    refine (Job.run_bind_ok (Job.run_perform_ok (.isThere logName)
      (congrArg (fun b => (Except.ok b, d)) hthere))).trans ?_
    exact Job.run_bind_error hretired

end

/-! ## An end without a beginning -/

/-- The directory of the ledger of two accounts where the log holds entries and then a line that
was not finished, and where the file of an interrupted write is left. -/
def litteredDisk (es : List Entry) : Disk :=
  { (foundedDisk twoState).append 0 (Log.lines es ++ [123]) with
    nodes := ((foundedDisk twoState).append 0 (Log.lines es ++ [123])).nodes.insert
      (tempName "recovery") (.file 2 [])
    nextId := 3 }

theorem holds_litteredDisk {es : List Entry} (hsound : ∀ e ∈ es, e.IsSound) :
    Holds "data" (litteredDisk es) twoState (Log.recordsFrom 0 es) [] := by
  have htorn : Log.IsTorn [123] := ⟨by decide, by decide⟩
  have hother : ∀ n, tempName "recovery" ≠ n → (litteredDisk es).nodes.get? n =
      ((foundedDisk twoState).append 0 (Log.lines es ++ [123])).nodes.get? n :=
    fun n hn => by simp [litteredDisk, hn]
  have hstate : (litteredDisk es).read stateName = .ok twoState.bytes := by
    rw [Disk.read, hother _ (by decide), Disk.get?_append, foundedDisk_state]
    rfl
  have hlog : (litteredDisk es).read logName = .ok (Log.lines es ++ [123]) := by
    rw [Disk.read, hother _ (by decide), Disk.get?_append_self _ (foundedDisk_log twoState)]
    exact congrArg Except.ok (List.nil_append _)
  have hmissing : (litteredDisk es).isThere retiredName = false := by
    rw [Disk.isThere, Table.contains, hother _ (by decide), Disk.get?_append, foundedDisk_retired]
    rfl
  refine ⟨?_, ⟨_, Log.run_replayFile hlog (Log.replay_lines (Log.fits_of_sound hsound) htorn)⟩,
    .inl ⟨hmissing, rfl⟩⟩
  rw [run_loadState hstate, load_twoState]

/-- An entry that commits a transaction. -/
def strayEntry : Entry := ⟨.commit, "t1", "", 0⟩

/-- Recovery refuses a directory where this is all that was logged, and leaves all of it as it
is. -/
theorem recover_fatal_strayEntry : ∃ f, f.isFatal = true ∧
    (recover "data" 8 (.still 0)).run.run (litteredDisk [strayEntry]) =
      (.error f, litteredDisk [strayEntry]) ∧
    ∀ ds e r, Execution (recover "data" 8 (.still 0)).run (litteredDisk [strayEntry]) ds e r →
      e = litteredDisk [strayEntry] ∧ ∀ x ∈ ds, x = litteredDisk [strayEntry] := by
  have hsound : ∀ e ∈ [strayEntry], e.IsSound :=
    List.forall_mem_singleton.mpr ⟨by decide, by decide, by decide⟩
  have hjudge : judge "data" twoState (Log.recordsFrom 0 [strayEntry]) [] = .error _ := rfl
  obtain ⟨c, hexamine⟩ := (holds_litteredDisk hsound).run_examine
  rw [hjudge] at hexamine
  have hrun := Job.run_bind_error (f := fun cp => repair "data" 8 (.still 0) cp.1 cp.2) hexamine
  exact ⟨_, rfl, hrun, (recover_fatal hrun rfl).2⟩

end Ledger
end LedgerGate

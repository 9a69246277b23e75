import LedgerGate.Ledger.Recovery
import LedgerGate.Proofs.Ledger.Operations
import LedgerGate.Proofs.Log.Contents

/-!
# Founding

A ledger that was founded is a state without transactions beside an empty log
(`Ledger.stores_of_found`), whatever other files there are.
-/

namespace LedgerGate.Ledger

open Log (Entry lines pathOf)

theorem genesis_ok {b : Balances} {s : State} (h : State.genesis b = .ok s) :
    (∀ d ∈ b.values, d.isNegative = false) ∧ s = ⟨0, b.map Decimal.normalize,
      State.rootOf (b.map Decimal.normalize), none, none, none⟩ := by
  unfold State.genesis at h
  split at h
  · exact absurd h nofun
  · next hnone =>
    refine ⟨fun d hd => ?_, (Except.ok.inj h).symm⟩
    obtain ⟨p, hp, rfl⟩ := List.mem_map.mp hd
    simpa using List.find?_eq_none.mp hnone p hp

/-- What the files of a ledger hold that was just founded on a disk. -/
def Files.founded (s : State) (start : Disk) : Files :=
  ⟨s, [], [], [], [], false, fun n => start.nodes.get? n = some .directory⟩

theorem isIntact_genesis {b : Balances} {s : State} (h : State.genesis b = .ok s) :
    s.IsIntact := by
  obtain ⟨hnonneg, rfl⟩ := genesis_ok h
  refine ⟨⟨Nat.zero_le _, nofun⟩, rfl, fun d hd => ?_⟩
  obtain ⟨p, hp, rfl⟩ := List.mem_map.mp hd
  obtain ⟨q, hq, rfl⟩ := List.mem_map.mp hp
  rw [Decimal.isNegative_normalize]
  exact hnonneg q.2 (List.mem_map_of_mem hq)

theorem restored_founded {s : State} (start : Disk) :
    (Files.founded s start).restored = s := restore_of_closed fun _ _ => List.not_mem_nil

/-- There is nothing to refuse in the files of a ledger that was just founded. -/
theorem legible_founded {b : Balances} {s : State} (h : State.genesis b = .ok s) (start : Disk) :
    (Files.founded s start).Legible where
  log_sound := nofun
  log_torn := Log.isTorn_nil
  retired_sound := nofun
  retired_torn := Log.isTorn_nil
  retired_missing := fun _ => ⟨rfl, rfl⟩
  orderly := trivial
  retired_ended := nofun
  open_unretired := nofun
  undo_known := by
    obtain ⟨-, rfl⟩ := genesis_ok h
    nofun
  undo_matches := nofun
  intact := isIntact_genesis h
  restored_intact := (restored_founded start).symm ▸ isIntact_genesis h

/-! ## What founding does -/

section

variable {α : Type} {d : Disk} {u : Unit}

/-- What a job that runs to its end comes to. Nothing is seen on the way. -/
abbrev Ends (x : Job α) (Q : α → Unit → Disk → Prop) : Unit → Disk → Prop :=
  x.Keeps (fun u _ => u) (fun _ _ => True) Q (fun _ _ _ => True)

theorem ends_perform {path : String} {op : FileOp} {Q : op.Reply → Unit → Disk → Prop}
    {r : Except FileError op.Reply} {d' : Disk} (happly : op.apply d = (r, d'))
    (hQ : ∀ a, r = .ok a → Q a u d') : Ends (Job.perform path op) Q u d := by
  refine Job.keeps_perform (fun _ _ => trivial) trivial ?_ fun _ _ => trivial
  rw [happly]
  exact hQ

theorem ends_refuseIfThere {Q : Unit → Unit → Disk → Prop} {dir : String} {names : List String}
    (hQ : (∀ n ∈ names, d.nodes.get? n = none) → Q () u d) :
    Ends (refuseIfThere dir names) Q u d := by
  induction names with
  | nil => exact Job.keeps_pure (hQ nofun)
  | cons n rest ih =>
    unfold refuseIfThere
    refine Job.Keeps.bind (ends_perform rfl fun there hthere => ?_)
    obtain rfl := Except.ok.inj hthere
    split
    · exact Job.keeps_fail trivial
    · next hn =>
      refine ih fun hrest => hQ (List.forall_mem_cons.mpr ⟨?_, hrest⟩)
      simpa [Disk.isThere, Table.contains] using hn

/-- The files of a ledger are there when the log was made, and the state file was written under
a temporary name and has got its own. -/
theorem Stores.founded {s : State} {d₁ d₂ d₃ : Disk} {i j : Nat}
    (hnone : ∀ n ∈ [stateName, logName, retiredName], d.nodes.get? n = none)
    (hlog : Disk.Opened { d with hasBase := true } logName i d₁)
    (hc : d₁.create (tempName "genesis") = .ok (j, d₂))
    (hr : Disk.Renamed (d₂.append j s.bytes) (tempName "genesis") stateName d₃) :
    Stores d₃ i (Files.founded s d) := by
  have htemp := hlog.sound.opened_create hc
  have hsame := htemp.sound.sameBut_append s.bytes htemp.content
  have hfile := Disk.get?_append_self s.bytes htemp.content
  rw [List.nil_append] at hfile
  have hlast : ∀ n, n ≠ tempName "genesis" → n ≠ stateName →
      d₃.nodes.get? n = d₁.nodes.get? n := fun n hn hn' =>
    (hr.others n hn hn').trans ((hsame n hn).trans (htemp.sameBut n hn))
  have hret : d₃.nodes.get? retiredName = none :=
    (hlast retiredName (by decide) (by decide)).trans
      ((hlog.sameBut retiredName (by decide)).trans (hnone retiredName (by simp)))
  have hstate : (d₂.append j s.bytes).nodes.get? stateName ≠ some .directory := by
    rw [hsame stateName (by decide), htemp.sameBut stateName (by decide),
      hlog.sameBut stateName (by decide), hnone stateName (by simp)]
    nofun
  have hfree : d₁.nodes.get? (tempName "genesis") ≠ some .directory := fun hdir => by
    obtain ⟨e, he⟩ := (Disk.create_error_iff hlog.hasBase).mpr hdir
    exact absurd (hc.symm.trans he) nofun
  have hdirs : Disk.SameDirectories d d₃ :=
    (hlog.sameDirectories (by simp [hnone logName (by simp)])).trans
      ((htemp.sameDirectories hfree).trans
        ((Disk.sameDirectories_append d₂ j s.bytes).trans (hr.sameDirectories hfile hstate)))
  exact {
    sound := hr.sound
    hasBase := hr.hasBase.trans (htemp.hasBase.trans hlog.hasBase)
    state := ⟨j, hr.arrived.trans hfile⟩
    log := (hlast logName (by decide) (by decide)).trans hlog.content
    retired := by simp [Disk.content?, Disk.read, hret, Except.toOption, Files.founded]
    retired_file := by simp [hret]
    blocked := fun n _ => hdirs n }

/-- Two files at most are new or changed after founding: the log and the state file. -/
theorem ends_found {dir : String} {b : Balances} (hd : d.Sound) :
    Ends (found dir b)
      (fun s _ d' => State.genesis b = .ok s ∧ ∃ i, Stores d' i (Files.founded s d)) u d := by
  have hd₀ : Disk.Sound { d with hasBase := true } := ⟨hd.apart, hd.fresh⟩
  unfold found
  refine Job.Keeps.bind (ends_perform rfl fun _ _ => ?_)
  refine Job.Keeps.bind (ends_refuseIfThere fun hnone => ?_)
  generalize State.genesis b = r
  refine Job.Keeps.bind (Job.keeps_ofExcept (fun s hs => ?_) fun _ _ => trivial)
  unfold Log.File.create
  refine Job.Keeps.bind (Job.Keeps.bind ?_)
  cases hc : Disk.createNew { d with hasBase := true } logName with
  | error e => exact ends_perform (congrArg (FileOp.opened _) hc) nofun
  | ok p =>
    obtain ⟨i, d₁⟩ := p
    have hlog := hd₀.opened_createNew hc
    refine ends_perform (congrArg (FileOp.opened _) hc) fun i' hi' => ?_
    obtain rfl := Except.ok.inj hi'
    refine Job.Keeps.bind (ends_perform rfl fun _ _ => Job.keeps_pure ?_)
    unfold replaceState writeState Log.File.writeWhole
    refine Job.Keeps.bind (Job.Keeps.bind (Job.Keeps.bind ?_))
    cases hc₂ : d₁.create (tempName "genesis") with
    | error e => exact ends_perform (congrArg (FileOp.opened _) hc₂) nofun
    | ok p =>
      obtain ⟨j, d₂⟩ := p
      have hsound := (hlog.sound.opened_create hc₂).sound.append j s.bytes
      refine ends_perform (congrArg (FileOp.opened _) hc₂) fun j' hj' => ?_
      obtain rfl := Except.ok.inj hj'
      refine Job.Keeps.bind (ends_perform rfl fun _ _ => ends_perform rfl fun _ _ => ?_)
      refine Job.Keeps.bind ?_
      cases hren : (d₂.append j s.bytes).rename (tempName "genesis") stateName with
      | error e => exact ends_perform (congrArg (FileOp.changed _) hren) nofun
      | ok d₃ =>
        refine ends_perform (congrArg (FileOp.changed _) hren) fun _ _ => ?_
        refine ends_perform rfl fun _ _ => Job.keeps_pure ⟨hs, i, ?_⟩
        exact .founded hnone hlog hc₂ (hsound.renamed (by decide) hren)

end

/-- What a founded ledger's files hold. -/
theorem stores_of_found {dir : String} {b : Balances} {d d' : Disk} {s : State} (hd : d.Sound)
    (h : (found dir b).run.run d = (.ok s, d')) :
    State.genesis b = .ok s ∧ ∃ i, Stores d' i (Files.founded s d) := by
  obtain ⟨ds, he⟩ := Execution.exists_of_run h
  exact (he.keeps (h := ()) trivial (ends_found hd)).2 _ rfl

/-! ## Runs of founding -/

theorem run_refuseIfThere {dir : String} {names : List String} {d : Disk}
    (h : ∀ n ∈ names, d.nodes.get? n = none) :
    (refuseIfThere dir names).run.run d = (.ok (), d) := by
  induction names with
  | nil => rfl
  | cons n rest ih =>
    have hn : d.isThere n = false := by simp [Disk.isThere, Table.contains, h n (by simp)]
    unfold refuseIfThere
    refine (Job.run_bind_ok (Job.run_perform_ok (.isThere n)
      (congrArg (fun b => (Except.ok b, d)) hn))).trans ?_
    exact ih fun m hm => h m (List.mem_cons_of_mem _ hm)

theorem run_replaceState {dir label : String} {s : State} {d e d₂ : Disk} {i : Nat}
    (hc : d.create (tempName label) = .ok (i, e))
    (hr : (e.append i s.bytes).rename (tempName label) stateName = .ok d₂)
    (hb : d₂.hasBase = true) : (replaceState dir label s).run.run d = (.ok (), d₂) := by
  unfold replaceState
  refine (Job.run_bind_ok (Log.File.run_writeWhole hc)).trans ?_
  refine (Job.run_bind_ok (Job.run_perform_ok (.rename _ _)
    (congrArg (FileOp.changed _) hr))).trans ?_
  refine Job.run_perform_ok .syncNames ?_
  show (d₂.checkBase, d₂) = _
  rw [Disk.checkBase, if_pos hb]
  rfl

/-- A ledger can be founded where none of its names is in use, and no directory is in the way of
the file in which its state is written first. -/
theorem exists_found_of_unused (dir : String) {b : Balances} {s : State} {d : Disk} (hd : d.Sound)
    (h : State.genesis b = .ok s)
    (hnone : ∀ n ∈ [stateName, logName, retiredName], d.nodes.get? n = none)
    (hfree : d.nodes.get? (tempName "genesis") ≠ some .directory) :
    ∃ e, (found dir b).run.run d = (.ok s, e) := by
  have hd₀ : Disk.Sound { d with hasBase := true } := ⟨hd.apart, hd.fresh⟩
  have hlog : d.nodes.get? logName = none := hnone _ (by simp)
  obtain ⟨i, d₁, hc⟩ : ∃ i d₁, Disk.createNew { d with hasBase := true } logName = .ok (i, d₁) := by
    simp [Disk.createNew, Disk.isThere, Table.contains, hlog, Disk.newFile]
  have hopen := hd₀.opened_createNew hc
  obtain ⟨j, d₂, hc₂⟩ : ∃ j d₂, d₁.create (tempName "genesis") = .ok (j, d₂) := by
    cases hc₂ : d₁.create (tempName "genesis") with
    | ok p => exact ⟨p.1, p.2, rfl⟩
    | error e =>
      have hdir := (Disk.create_error_iff hopen.hasBase).mp ⟨e, hc₂⟩
      exact absurd ((hopen.sameBut _ (by decide)).symm.trans hdir) hfree
  have htemp := hopen.sound.opened_create hc₂
  have hstate : (d₂.append j s.bytes).nodes.get? stateName = none := by
    rw [Disk.get?_append, htemp.sameBut _ (by decide), hopen.sameBut _ (by decide)]
    simp [hnone stateName (by simp)]
  obtain ⟨d₃, hren⟩ : ∃ d₃,
      (d₂.append j s.bytes).rename (tempName "genesis") stateName = .ok d₃ := by
    simp [Disk.rename, Disk.get?_append_self s.bytes htemp.content, hstate]
  have hbase : d₃.hasBase = true :=
    ((htemp.sound.append j s.bytes).renamed (by decide) hren).hasBase.trans
      (htemp.hasBase.trans hopen.hasBase)
  refine ⟨d₃, ?_⟩
  unfold found
  rw [h]
  refine (Job.run_bind_ok (Job.run_perform_ok .ensureBase rfl)).trans ?_
  refine (Job.run_bind_ok (run_refuseIfThere (d := { d with hasBase := true }) hnone)).trans ?_
  refine (Job.run_bind_ok (e := { d with hasBase := true }) (a := s) rfl).trans ?_
  refine (Job.run_bind_ok (Log.File.run_create hc)).trans ?_
  exact (Job.run_bind_ok (run_replaceState hc₂ hren hbase)).trans rfl

/-- A ledger can be founded where none of its names are taken. -/
theorem exists_found (dir : String) {b : Balances} {s : State} {d : Disk} (hd : d.Sound)
    (h : State.genesis b = .ok s)
    (hnone : ∀ n ∈ [stateName, logName, retiredName, tempName "genesis"], d.nodes.get? n = none) :
    ∃ e, (found dir b).run.run d = (.ok s, e) := by
  refine exists_found_of_unused dir hd h (fun n hn => ?_) ?_
  · exact hnone n (List.mem_append_left [tempName "genesis"] hn)
  · rw [hnone (tempName "genesis") (by simp)]
    nofun

/-- The directory of a ledger that was just founded in an empty one. -/
def foundedDisk (s : State) : Disk :=
  ⟨(Table.empty.insert logName (.file 0 [])).insert stateName (.file 1 s.bytes), 2, true⟩

theorem found_empty (dir : String) {b : Balances} {s : State} (h : State.genesis b = .ok s) :
    (found dir b).run.run .empty = (.ok s, foundedDisk s) := by
  have hne : logName ≠ tempName "genesis" := by decide
  have hls : logName ≠ stateName := by decide
  have hts : tempName "genesis" ≠ stateName := by decide
  unfold found
  rw [h]
  refine (Job.run_bind_ok (Job.run_perform_ok .ensureBase rfl)).trans ?_
  refine (Job.run_bind_ok (e := .empty) (a := ()) rfl).trans ?_
  refine (Job.run_bind_ok (e := .empty) (a := s) rfl).trans ?_
  refine (Job.run_bind_ok (e := ⟨Table.empty.insert logName (.file 0 []), 1, true⟩) rfl).trans ?_
  refine (Job.run_bind_ok (run_replaceState (i := 1) (e := ⟨(Table.empty.insert logName
    (.file 0 [])).insert (tempName "genesis") (.file 1 []), 2, true⟩) ?_ ?_ rfl)).trans rfl
  · simp [Disk.create, Disk.newFile, hne]
  · simp only [Disk.append, Disk.rename, Table.get?_map, Table.get?_insert, foundedDisk]
    simp [hls, hts, Disk.appendNode]
    refine Table.ext_get? fun k => ?_
    simp only [Table.get?_insert, Table.get?_erase, Table.get?_map, Table.get?_empty]
    split_ifs with _ ht hl <;> first | rfl | exact absurd (hl.trans ht.symm) hne

theorem foundedDisk_state (s : State) :
    (foundedDisk s).nodes.get? stateName = some (.file 1 s.bytes) := by
  simp [foundedDisk]

theorem foundedDisk_log (s : State) : (foundedDisk s).nodes.get? logName = some (.file 0 []) := by
  have hne : stateName ≠ logName := by decide
  simp [foundedDisk, hne]

theorem foundedDisk_retired (s : State) : (foundedDisk s).nodes.get? retiredName = none := by
  have hstate : stateName ≠ retiredName := by decide
  have hlog : logName ≠ retiredName := by decide
  simp [foundedDisk, hstate, hlog]

theorem foundedDisk_list (s : State) : (foundedDisk s).list = .ok [stateName, logName] := by
  have hlt : stateName < logName := by decide
  have hdirect : [stateName, logName].filter Disk.isDirect = [stateName, logName] := by decide
  simp only [Disk.list, Disk.names, Table.keys, foundedDisk, Table.insert, Table.empty,
    Table.insertEntry, if_pos hlt, List.map_cons, List.map_nil, hdirect, if_true]

theorem run_loadState {dir : String} {d : Disk} {bytes : List UInt8}
    (h : d.read stateName = .ok bytes) :
    (loadState dir).run.run d = (State.load (pathOf dir stateName) bytes, d) := by
  unfold loadState
  generalize pathOf dir stateName = path
  refine (Job.run_bind_ok (a := .ok bytes) (e := d) ?_).trans rfl
  exact congrArg (fun r => (Except.ok r, d)) h

section

variable {dir : String} {s : State} (hload : State.load (pathOf dir stateName) s.bytes = .ok s)
  (hundo : s.undo = none)
include hload hundo

open Recovery

theorem examine_founded : (examine dir).run.run (foundedDisk s) =
    (.ok (⟨s, none, ⟨[], none⟩⟩, ⟨.empty, [], none⟩), foundedDisk s) := by
  have hstate : (loadState dir).run.run (foundedDisk s) = (.ok s, foundedDisk s) := by
    rw [run_loadState (by rw [Disk.read, foundedDisk_state]), hload]
  have hthere : (foundedDisk s).isThere logName = true := by
    rw [Disk.isThere, Table.contains, foundedDisk_log]; rfl
  have hretired : (readRetired dir).run.run (foundedDisk s) = (.ok (none, []), foundedDisk s) := by
    have hnot : (foundedDisk s).isThere retiredName = false := by
      rw [Disk.isThere, Table.contains, foundedDisk_retired]; rfl
    exact (Job.run_bind_ok (Job.run_perform_ok (.isThere retiredName)
      (congrArg (fun b => (Except.ok b, foundedDisk s)) hnot))).trans rfl
  have hlog : (Log.replayFile dir logName).run.run (foundedDisk s) =
      (.ok ⟨[], none⟩, foundedDisk s) := by
    have hread : (foundedDisk s).read logName = .ok [] := by rw [Disk.read, foundedDisk_log]
    have hnone : ∀ e ∈ ([] : List Entry), e.Fits := fun _ he => absurd he List.not_mem_nil
    have hreplay : Log.replay (lines [] ++ []) = .ok ⟨[], none⟩ :=
      Log.replay_lines hnone Log.isTorn_nil
    exact Log.run_replayFile hread hreplay
  have hplan : planFor dir s [] [] = .ok ⟨.empty, [], none⟩ := by
    simp [planFor, History.addAll, History.empty, findUndo, hundo]
  unfold examine
  refine (Job.run_bind_ok hstate).trans ?_
  refine (Job.run_bind_ok (Job.run_perform_ok (.isThere logName)
    (congrArg (fun b => (Except.ok b, foundedDisk s)) hthere))).trans ?_
  refine (Job.run_bind_ok hretired).trans ?_
  refine (Job.run_bind_ok hlog).trans ?_
  exact (Job.run_bind_ok (congrArg (fun r => (r, foundedDisk s)) hplan)).trans rfl

/-- What was just founded is recovered as it is. -/
theorem recover_founded {threshold : Nat} (host : Host) (hthreshold : 0 < threshold) :
    (recover dir threshold host).run.run (foundedDisk s) =
      (.ok (⟨dir, threshold, s, s.balances, rfl, ⟨dir, logName, 0, 0⟩, [], [], [], 0, none⟩,
        ⟨[], [], s.version, s.merkleRoot, 0, false, []⟩), foundedDisk s) := by
  have hopen : (foundedDisk s).openFile logName = .ok (0, 0) := by
    rw [Disk.openFile, foundedDisk_log]; rfl
  have hnone : [stateName, logName].filter isTempName = [] := by decide
  have hlisted : (host.listing [stateName, logName]).filter isTempName = [] :=
    List.perm_nil.mp (hnone ▸ (host.listing_perm _).filter isTempName)
  have htemps : (removeTempFiles dir host).run.run (foundedDisk s) = (.ok [], foundedDisk s) := by
    refine (Job.run_bind_ok (Job.run_perform_ok .names
      (congrArg (fun r => (r, foundedDisk s)) (foundedDisk_list s)))).trans ?_
    rw [hlisted, hnone]
    rfl
  have hlog : (Log.File.openLog dir logName).run.run (foundedDisk s) =
      (.ok ⟨dir, logName, 0, 0⟩, foundedDisk s) :=
    (Job.run_bind_ok (Job.run_perform_ok (.openFile logName)
      (congrArg (fun r => (r, foundedDisk s)) hopen))).trans rfl
  unfold recover
  refine (Job.run_bind_ok (examine_founded hload hundo)).trans ?_
  unfold repair
  refine (Job.run_bind_ok (e := foundedDisk s) (a := ()) rfl).trans ?_
  refine (Job.run_bind_ok (e := foundedDisk s) (a := ()) rfl).trans ?_
  refine (Job.run_bind_ok hlog).trans ?_
  refine (Job.run_bind_ok (e := foundedDisk s) (a := ⟨s, ⟨dir, logName, 0, 0⟩, [], []⟩)
    rfl).trans ?_
  refine (Job.run_bind_ok htemps).trans ?_
  have hdue : ¬ threshold ≤ History.empty.endedInLog + (History.empty.begun.map Entry.tx).length :=
    Nat.not_le.mpr hthreshold
  simp only [hdue, if_false]
  rfl

end

/-! ## A ledger of two accounts -/

/-- Balances of two accounts. -/
def twoBalances : Balances := Table.ofList [("alice", .ofInt64 100), ("bob", .ofInt64 20)]

/-- The first state of a ledger with two accounts. -/
def twoState : State :=
  ⟨0, twoBalances.map Decimal.normalize, State.rootOf (twoBalances.map Decimal.normalize), none,
    none, none⟩

theorem genesis_twoBalances : State.genesis twoBalances = .ok twoState := by
  have hnone : twoBalances.entries.find? (fun p => p.2.isNegative) = none := by decide
  rw [State.genesis, hnone]
  rfl

/-- The layer of that ledger in a directory, when it was just opened. -/
def twoLayer (dir : String) (threshold : Nat) : Layer :=
  ⟨dir, threshold, twoState, twoState.balances, rfl, ⟨dir, logName, 0, 0⟩, [], [], [], 0, none⟩

theorem load_twoState (path : String) : State.load path twoState.bytes = .ok twoState := by
  have hread : twoState.IsReadable := by decide
  rw [(isIntact_genesis genesis_twoBalances).load_bytes, if_pos hread]

end LedgerGate.Ledger

import LedgerGate.Proofs.Ledger.Compaction

/-!
# Recovery is safe

Recovery reads what the files hold (`Recovery.safely_examine`), takes back and rolls back what
did not end (`Recovery.safely_rollBack`) and removes temporary files. Wherever it stops, it
can be done again, and what it has done until then is a repair; when it succeeds, nothing is
open. It fails only where the state file cannot be read or a directory is in its way
(`Recovery.MayFail`).
-/

namespace LedgerGate.Recovery

open Ledger
open Log (Entry Record Replay lines openIn endedIn IsTorn)

variable {η : Type} {note : η → List Entry → η} {J : η → Files → Prop} {h : η} {d : Disk}
  {i : Nat} {F : Files}

/-- Whether the name of a file of an interrupted write is taken by a directory. -/
def Hindered (F : Files) : Prop :=
  ∃ n, isTempName n = true ∧ Disk.isDirect n = true ∧ F.blocked n

/-- Whether a recovery of files may fail. -/
def MayFail (F : Files) : Prop := ¬ F.state.IsReadable ∨ Hindered F

/-- Of a fault, no more is said than when it can occur. -/
abbrev Only {η : Type} (P : Prop) (_ : Fault) (_ : η) (_ : Disk) : Prop := P

variable {P : Prop} [Noting note J]

/-! ## Reading -/

/-- The state file is read as the state that was written if all balances in it can be read. -/
theorem safely_loadState {Q : State → η → Disk → Prop} {dir : String} (hs : Stores d i F)
    (hF : F.Coherent J h) (hQ : F.state.IsReadable → Q F.state h d)
    (hP : ¬ F.state.IsReadable → P) :
    Safely note J (loadState dir) Q (Only P) h d := by
  obtain ⟨j, hj⟩ := hs.state
  have hread : d.read stateName = .ok F.state.bytes := by simp [Disk.read, hj]
  have happly : (FileOp.apply (.read stateName) d).1 = .ok F.state.bytes := hread
  have hsame : (FileOp.apply (.read stateName) d).2 = d := rfl
  unfold loadState
  refine Job.Keeps.bind (Job.keeps_attempt (fun _ ht => ht.elim) ?_ ?_) <;>
    rw [hsame, hs.look note hF]
  · exact ⟨i, F, hs, hF⟩
  · rw [happly]
    dsimp only
    rw [hF.intact.load_bytes]
    split
    · next hreadable =>
      refine Job.keeps_ofExcept (fun s hs => Except.ok.inj hs ▸ hQ hreadable) fun f hf => ?_
      cases hf
    · next hnot =>
      refine Job.keeps_ofExcept (fun s hs => ?_) fun _ _ => hP hnot
      cases hs

theorem safely_replayFile {Q : Replay → η → Disk → Prop} {dir name : String}
    {es : List Entry} {tail : List UInt8} (hs : Stores d i F) (hF : F.Coherent J h)
    (hread : d.read name = .ok (lines es ++ tail)) (hes : ∀ e ∈ es, e.IsSound)
    (ht : IsTorn tail)
    (hQ : Q ⟨Log.recordsFrom 0 es, if tail = [] then none else some (lines es).length⟩ h d) :
    Safely note J (Log.replayFile dir name) Q (Only P) h d := by
  unfold Log.replayFile
  refine Job.Keeps.bind (safely_look hs hF rfl (fun _ => id) (fun c hc => ?_) fun e he => ?_)
  · obtain rfl := Except.ok.inj (hread.symm.trans hc)
    rw [Log.replay_lines (Log.fits_of_sound hes) ht]
    exact Job.keeps_pure hQ
  · exact absurd (hread.symm.trans he) nofun

theorem safely_readRetired {Q : Option Replay × List String → η → Disk → Prop} {dir : String}
    (hs : Stores d i F) (hF : F.Coherent J h)
    (hQ : ∀ o, o.bind Replay.tornAt =
        (if F.retiredTail = [] then none else some (lines F.retired).length) →
      Q (o, F.retired.map Entry.tx) h d) :
    Safely note J (readRetired dir) Q (Only P) h d := by
  unfold readRetired
  refine Job.Keeps.bind (safely_look hs hF rfl (fun _ => id) (fun there hthere => ?_) nofun)
  obtain rfl := Except.ok.inj hthere
  cases hret : F.hasRetired with
  | true =>
    obtain ⟨k, hk⟩ := hs.get?_retired hret
    rw [if_pos (by simp [Disk.isThere, Table.contains, hk])]
    refine Job.Keeps.bind (safely_replayFile hs hF (by simp [Disk.read, hk]) hF.retired_sound
      hF.retired_torn ?_)
    have hended : ∀ r ∈ Log.recordsFrom 0 F.retired, r.entry.op ≠ .begin := fun r hr =>
      hF.retired_ended r.entry (by
        rw [← Log.map_entry_recordsFrom F.retired 0]
        exact List.mem_map_of_mem hr)
    obtain ⟨txs, htxs⟩ : ∃ txs, retiredTransactions (Log.pathOf dir retiredName)
      (Log.recordsFrom 0 F.retired) = .ok txs := exists_retiredTransactions hended
    have hmap : (Log.recordsFrom 0 F.retired).map (fun r => r.entry.tx) =
        F.retired.map Entry.tx := by
      rw [← Log.map_entry_recordsFrom F.retired 0, List.map_map, Log.map_entry_recordsFrom]
      rfl
    dsimp only
    rw [htxs, retiredTransactions_eq htxs, hmap]
    exact Job.Keeps.bind (Job.keeps_pure (hQ _ rfl))
  | false =>
    obtain ⟨hnil, htail⟩ := hF.retired_missing hret
    have := hQ none (by rw [htail]; rfl)
    rw [hnil] at this
    rw [if_neg (by simp [Disk.isThere, Table.contains, hs.retired_none hret])]
    exact Job.keeps_pure this

/-- What is read of files and planned for them. -/
structure Examined (dir : String) (F : Files) (c : Contents) (p : Plan) : Prop where
  readable : F.state.IsReadable
  state : c.state = F.state
  logTornAt : c.log.tornAt = if F.logTail = [] then none else some (lines F.log).length
  retiredTornAt : c.retired.bind Replay.tornAt =
    if F.retiredTail = [] then none else some (lines F.retired).length
  tells : p.history.Tells (F.retired.map Entry.tx) F.log
  retired : p.retired = F.retired.map Entry.tx
  undo : findUndo dir F.state p.history.begun = .ok p.undo

/-- What is read and planned is what the files hold. There is nothing in it to refuse. -/
theorem safely_examine {Q : Contents × Plan → η → Disk → Prop} {dir : String}
    (hs : Stores d i F) (hF : F.Coherent J h) (hQ : ∀ c p, Examined dir F c p → Q (c, p) h d)
    (hP : ¬ F.state.IsReadable → P) :
    Safely note J (examine dir) Q (Only P) h d := by
  unfold examine
  refine Job.Keeps.bind (safely_loadState hs hF (fun hreadable => ?_) hP)
  refine Job.Keeps.bind (safely_look hs hF rfl (fun _ => id) (fun there hthere => ?_) nofun)
  obtain rfl := Except.ok.inj hthere
  rw [if_neg (by simp [Disk.isThere, Table.contains, hs.log])]
  refine Job.Keeps.bind (safely_readRetired hs hF fun o ho => ?_)
  refine Job.Keeps.bind (safely_replayFile hs hF (by simp [Disk.read, hs.log]) hF.log_sound
    hF.log_torn ?_)
  obtain ⟨p, hp⟩ : ∃ p, planFor dir F.state (F.retired.map Entry.tx)
      (Log.recordsFrom 0 F.log) = .ok p := by
    refine exists_planFor ?_ ?_ ?_ <;> rw [Log.map_entry_recordsFrom]
    · exact hF.orderly
    · exact hF.open_unretired
    · exact hF.undo_matches
  obtain ⟨htells, hret, hundo⟩ := planFor_ok hp
  rw [Log.map_entry_recordsFrom] at htells
  dsimp only
  rw [hp]
  exact Job.Keeps.bind (Job.keeps_pure (hQ _ p ⟨hreadable, rfl, rfl, ho, htells, hret, hundo⟩))

/-! ## Taking back -/

/-- Where the recovery of files is when some entries of open transactions are still to be
rolled back. -/
structure Repairing (J : η → Files → Prop) (h : η) (F₀ : Files) (d : Disk) (i : Nat) (F : Files)
    (r : Repairs) (rest : List Entry) : Prop where
  stores : Stores d i F
  coherent : F.Coherent J h
  repairs : F₀.Repairs F
  id : r.log.id = i
  name : r.log.name = logName
  logTail : F.logTail = []
  retiredTail : F.retiredTail = []
  state : r.state = F.state
  opened : openIn F.log = rest
  rest_open : ∀ e ∈ rest, e ∈ openIn F₀.log
  /-- As many transactions will have ended as were known. -/
  count : (endedIn F.log).length + rest.length =
    (endedIn F₀.log).length + (openIn F₀.log).length
  reverted : ∀ t ∈ r.reverted, t ∈ (openIn F₀.log).map Entry.tx
  unretired_mem : ∀ e ∈ r.unretired, e.IsSound ∧ e.op ≠ .begin ∧ e.tx ∈ endedIn F.log
  unretired : ∀ t ∈ endedIn F.log, t ∈ r.unretired.map Entry.tx ∨ t ∈ F.retired.map Entry.tx

/-- Whether the record that is going to be taken back is in the state and its transaction is
still to be rolled back, or both are over. -/
def Pending (F : Files) (undo : Option Undo) (rest : List Entry) : Prop :=
  (∃ u, undo = some u ∧ F.state.undo = some u ∧ u.tx ∈ rest.map Entry.tx) ∨
    ((∀ u, undo = some u → u.tx ∉ rest.map Entry.tx) ∧
      ∀ u, F.state.undo = some u → u.tx ∉ rest.map Entry.tx)

variable {F₀ : Files} {r : Repairs} {undo : Option Undo} {e : Entry} {rest : List Entry}

omit [Noting note J] in
theorem Repairing.notMem (hr : Repairing J h F₀ d i F r (e :: rest)) :
    e.tx ∉ rest.map Entry.tx := by
  have hnodup := hr.coherent.orderly.nodup_openIn
  rw [hr.opened] at hnodup
  exact (List.nodup_cons.mp hnodup).1

theorem safely_replaceState {Q : Unit → η → Disk → Prop} {dir label : String} {s : State}
    (hs : Stores d i F) (hF : F.Coherent J h) (hF' : Files.Coherent J h { F with state := s })
    (hQ : ∀ d', Stores d' i { F with state := s } → Q () h d')
    (hP : F.blocked (tempName label) → P) :
    Safely note J (replaceState dir label s) Q (Only P) h d := by
  unfold replaceState writeState
  refine Job.Keeps.bind (safely_writeWhole (isTempName_tempName label) hs hF
    (fun d₁ j hs₁ htemp _ => ?_) fun _ => hP)
  refine Job.Keeps.bind (safely_renameState (isTempName_tempName label) hs₁ htemp hF'
    fun d₂ hs₂ => ?_)
  exact safely_syncNames hs₂ hF' (hQ d₂ hs₂)

/-- The record is that of the transaction to be rolled back next, or it can wait. -/
theorem Pending.cases (hp : Pending F undo (e :: rest)) :
    (∃ u, undo = some u ∧ F.state.undo = some u ∧ u.tx = e.tx) ∨
      (∀ u, undo = some u → u.tx ≠ e.tx) ∧ (∀ u, F.state.undo = some u → u.tx ≠ e.tx) ∧
        Pending F undo rest := by
  have hne : ∀ u : Undo, u.tx ∉ (e :: rest).map Entry.tx → u.tx ≠ e.tx ∧ u.tx ∉ rest.map Entry.tx :=
    fun u h => not_or.mp (mt List.mem_cons.mpr h)
  rcases hp with ⟨u, rfl, hu, hmem⟩ | ⟨h1, h2⟩
  · by_cases hut : u.tx = e.tx
    · exact .inl ⟨u, rfl, hu, hut⟩
    · refine .inr ⟨fun v hv => ?_, fun v hv => ?_, .inl ⟨u, rfl, hu, ?_⟩⟩
      · exact Option.some.inj hv ▸ hut
      · exact Option.some.inj (hu.symm.trans hv) ▸ hut
      · exact (List.mem_cons.mp hmem).resolve_left hut
  · exact .inr ⟨fun u hu => (hne u (h1 u hu)).1, fun u hu => (hne u (h2 u hu)).1,
      .inr ⟨fun u hu => (hne u (h1 u hu)).2, fun u hu => (hne u (h2 u hu)).2⟩⟩

variable [Lasting J]

omit [Noting note J] in
/-- The state before the first of the open transactions is in the state file. -/
theorem Repairing.takenBack {u : Undo} {d' : Disk} (hr : Repairing J h F₀ d i F r (e :: rest))
    (hback : F.Repair { F with state := F.state.reverted u })
    (hs' : Stores d' i { F with state := F.state.reverted u }) :
    Repairing J h F₀ d' i { F with state := F.state.reverted u }
      { r with state := F.state.reverted u, reverted := r.reverted ++ [e.tx] } (e :: rest) :=
  { hr with
    stores := hs'
    coherent := hr.coherent.repair hback
    repairs := hr.repairs.tail hback
    state := rfl
    reverted := fun t ht => by
      rcases List.mem_append.mp ht with ht | ht
      · exact hr.reverted t ht
      · obtain rfl := List.mem_singleton.mp ht
        exact List.mem_map_of_mem (hr.rest_open e List.mem_cons_self) }

/-- Before a transaction is rolled back in the log, it is taken back from the state. -/
theorem safely_takeBack {Q : Repairs → η → Disk → Prop} {dir : String}
    (hr : Repairing J h F₀ d i F r (e :: rest)) (hp : Pending F undo (e :: rest))
    (hQ : ∀ r' d' F', Repairing J h F₀ d' i F' r' (e :: rest) →
      (∀ u, F'.state.undo = some u → u.tx ≠ e.tx) → Pending F' undo rest → Q r' h d')
    (hP : F₀.blocked (tempName "recovery") → P) :
    Safely note J (takeBack dir undo e.tx r) Q (Only P) h d := by
  rcases hp.cases with ⟨u, rfl, hu, hut⟩ | ⟨hundo, hstate, hrest⟩
  · have hopen : u.tx ∈ (openIn F.log).map Entry.tx := by
      rw [hut, hr.opened]
      exact List.mem_cons_self
    have hback : F.Repair { F with state := F.state.reverted u } := .takeBack hu hopen
    unfold takeBack
    dsimp only
    rw [if_pos hut, hr.state]
    refine Job.Keeps.bind (safely_replaceState hr.stores hr.coherent (hr.coherent.repair hback)
      (fun d' hs' => ?_) fun hb => hP (hr.repairs.blocked ▸ hb))
    have hover : Pending { F with state := F.state.reverted u } (some u) rest :=
      .inr ⟨fun v hv => Option.some.inj hv ▸ hut ▸ hr.notMem, nofun⟩
    exact Job.keeps_pure (hQ _ d' _ (hr.takenBack hback hs') nofun hover)
  · rw [takeBack_of_ne hundo]
    exact Job.keeps_pure (hQ r d F hr hstate hrest)

omit [Noting note J] [Lasting J] in
theorem Repairing.rollback (hr : Repairing J h F₀ d i F r (e :: rest)) (time : UInt64)
    (hundo : ∀ u, F.state.undo = some u → u.tx ≠ e.tx) :
    F.Repair { F with log := F.log ++ [e.ending .rollback time] } := by
  have he : e ∈ openIn F.log := by simp [hr.opened]
  exact .rollback ((hr.coherent.log_sound e (Log.mem_openIn.mp he).1).ending .rollback time) rfl
    (List.mem_map.mpr ⟨e, he, rfl⟩) hundo

omit [Noting note J] in
/-- The entry that rolls a transaction back closes it in the log. -/
theorem Repairing.rolledBack {d' : Disk} {n : Nat} {time : UInt64}
    (hr : Repairing J h F₀ d i F r (e :: rest)) (hundo : ∀ u, F.state.undo = some u → u.tx ≠ e.tx)
    (hs' : Stores d' i { F with log := F.log ++ [e.ending .rollback time] }) :
    Repairing J h F₀ d' i { F with log := F.log ++ [e.ending .rollback time] }
      { r with
        log := { r.log with length := n }
        unretired := r.unretired ++ [e.ending .rollback time] } rest := by
  have he : e ∈ openIn F.log := by simp [hr.opened]
  have hsound := (hr.coherent.log_sound e (Log.mem_openIn.mp he).1).ending .rollback time
  have hop : (e.ending .rollback time).op ≠ .begin := by simp
  have hended : endedIn (F.log ++ [e.ending .rollback time]) = endedIn F.log ++ [e.tx] := by
    rw [Log.endedIn_append, Log.endedIn_terminal hop, Log.Entry.tx_ending]
  have hrepair := hr.rollback time hundo
  refine { hr with
    stores := hs'
    coherent := hr.coherent.repair hrepair
    repairs := hr.repairs.tail hrepair
    opened := ?_
    rest_open := fun b hb => hr.rest_open b (List.mem_cons_of_mem _ hb)
    count := ?_
    unretired_mem := fun f hf => ?_
    unretired := fun t ht => ?_ }
  · show openIn (F.log ++ _) = rest
    rw [Log.openIn_append_terminal hop, hr.opened, List.filter_cons_of_neg (by simp)]
    refine List.filter_eq_self.mpr fun b hb => decide_eq_true fun heq => hr.notMem ?_
    exact heq ▸ List.mem_map_of_mem hb
  · rw [hended, List.length_append, List.length_singleton, ← hr.count, List.length_cons]
    omega
  · rw [hended, List.mem_append, List.mem_singleton]
    rcases List.mem_append.mp hf with hf | hf
    · obtain ⟨hsound, hterminal, hmem⟩ := hr.unretired_mem f hf
      exact ⟨hsound, hterminal, .inl hmem⟩
    · obtain rfl := List.mem_singleton.mp hf
      exact ⟨hsound, hop, .inr rfl⟩
  · show t ∈ List.map Entry.tx (r.unretired ++ _) ∨ _
    rw [hended, List.mem_append, List.mem_singleton] at ht
    rw [List.map_append, List.mem_append]
    rcases ht with ht | rfl
    · exact (hr.unretired t ht).imp_left .inl
    · exact .inl (.inr (by simp))

/-- All open transactions are rolled back, one after the other. -/
theorem safely_rollBack {Q : Repairs → η → Disk → Prop} {dir : String} {clock : Nat → UInt64}
    (hr : Repairing J h F₀ d i F r rest) (hp : Pending F undo rest)
    (hQ : ∀ r' d' F', Repairing J h F₀ d' i F' r' [] → (rest = [] → r' = r ∧ F' = F) →
      Q r' h d')
    (hP : F₀.blocked (tempName "recovery") → P) :
    Safely note J (rollBack dir clock undo r rest) Q (Only P) h d := by
  induction rest generalizing clock r d F with
  | nil => exact Job.keeps_pure (hQ r d F hr fun _ => ⟨rfl, rfl⟩)
  | cons e rest ih =>
    unfold rollBack
    refine Job.Keeps.bind (safely_takeBack hr hp (fun r₁ d₁ F₁ hr₁ hundo hp₁ => ?_) hP)
    have he : e ∈ openIn F₁.log := by simp [hr₁.opened]
    have hsound := (hr₁.coherent.log_sound e (Log.mem_openIn.mp he).1).ending .rollback (clock 0)
    have hF' := hr₁.coherent.repair (hr₁.rollback (clock 0) hundo)
    have hnote : note h (F₁.log ++ [e.ending .rollback (clock 0)]) = h := hF'.look
    refine Job.Keeps.bind (safely_append hr₁.stores hr₁.coherent hr₁.id hr₁.logTail hsound
      (hnote.symm ▸ hF') fun d₂ n hs₂ => ?_)
    rw [hnote]
    exact ih (hr₁.rolledBack hundo hs₂) hp₁ fun r' d' F' hr' _ => hQ r' d' F' hr' nofun

/-! ## Temporary files -/

/-- Whether no file of an interrupted write is there. -/
def NoTemps (d : Disk) : Prop := ∀ n ∈ d.names, isTempName n = false

theorem mem_names {n : String} : n ∈ d.names ↔ d.nodes.get? n ≠ none ∧ Disk.isDirect n = true := by
  rw [Disk.names, List.mem_filter, Table.mem_keys_iff, Table.contains, Option.isSome_iff_ne_none]

theorem NoTemps.of_fewer {d' : Disk} (hd : NoTemps d) (h : FewerTemps d d') : NoTemps d' := by
  intro n hn
  obtain ⟨hthere, hdirect⟩ := mem_names.mp hn
  cases htemp : isTempName n with
  | false => rfl
  | true =>
    have hsame := (h n htemp).resolve_left hthere
    exact htemp.symm.trans (hd n (mem_names.mpr ⟨hsame ▸ hthere, hdirect⟩))

/-- Where no file of an interrupted write is there, no directory has taken its name. -/
theorem NoTemps.not_hindered (hd : NoTemps d) (hs : Stores d i F) : ¬ Hindered F := by
  rintro ⟨n, htemp, hdirect, hblocked⟩
  have hdir := (hs.blocked n htemp).mpr hblocked
  have hn : n ∈ d.names := mem_names.mpr ⟨by simp [hdir], hdirect⟩
  exact absurd (htemp.symm.trans (hd n hn)) nofun

omit [Lasting J] in
theorem safely_removeFiles {Q : Unit → η → Disk → Prop} {dir : String} {names : List String}
    (ht : ∀ n ∈ names, isTempName n = true) (hthere : ∀ n ∈ names, d.nodes.get? n ≠ none)
    (hnodup : names.Nodup) (hs : Stores d i F) (hF : F.Coherent J h)
    (hQ : ∀ d', Stores d' i F → (∀ n ∈ names, d'.nodes.get? n = none) →
      (∀ n, n ∉ names → d'.nodes.get? n = d.nodes.get? n) → Q () h d')
    (hP : ∀ n ∈ names, F.blocked n → P) :
    Safely note J (removeFiles dir names) Q (Only P) h d := by
  induction names generalizing d with
  | nil => exact Job.keeps_pure (hQ d hs nofun fun _ _ => rfl)
  | cons n rest ih =>
    obtain ⟨htemp, hrest⟩ := List.forall_mem_cons.mp ht
    obtain ⟨hfirst, hothers⟩ := List.forall_mem_cons.mp hthere
    obtain ⟨hnot, hnodup⟩ := List.nodup_cons.mp hnodup
    unfold removeFiles
    refine Job.Keeps.bind ?_
    cases hrem : d.remove n with
    | error err =>
      have hdir := (Disk.remove_error_iff.mp ⟨err, hrem⟩).resolve_left hfirst
      exact safely_perform (congrArg (FileOp.changed d) hrem) hF nofun hs nofun fun _ _ =>
        hP n List.mem_cons_self ((hs.blocked n htemp).mp hdir)
    | ok d₁ =>
      have hr := hs.sound.removed hrem
      have hs₁ := hs.removeTemp htemp hrem
      have hkept : ∀ m ∈ rest, d₁.nodes.get? m ≠ none := fun m hm => by
        rw [hr.sameBut m fun heq => hnot (heq ▸ hm)]
        exact hothers m hm
      refine safely_perform (congrArg (FileOp.changed d) hrem) hF nofun hs₁ (fun _ _ => ?_) nofun
      refine ih hrest hkept hnodup hs₁ (fun d' hs' hgone hsame =>
        hQ d' hs' (fun m hm => ?_) fun m hm => ?_) fun m hm => hP m (List.mem_cons_of_mem _ hm)
      · by_cases hrest : m ∈ rest
        · exact hgone m hrest
        · obtain rfl := (List.mem_cons.mp hm).resolve_right hrest
          exact (hsame m hrest).trans hr.content
      · obtain ⟨hne, hrest⟩ := not_or.mp (List.mem_cons.not.mp hm)
        exact (hsame m hrest).trans (hr.sameBut m hne)

omit [Lasting J] in
theorem safely_removeTempFiles {Q : List String → η → Disk → Prop} {dir : String} {host : Host}
    (hs : Stores d i F) (hF : F.Coherent J h)
    (hQ : ∀ names d', Stores d' i F → NoTemps d' → Q names h d') (hP : Hindered F → P) :
    Safely note J (removeTempFiles dir host) Q (Only P) h d := by
  have hlist : d.list = .ok d.names := if_pos hs.hasBase
  unfold removeTempFiles
  refine Job.Keeps.bind (safely_look hs hF rfl (fun _ => id) (fun names hnames => ?_)
    fun e he => ?_)
  swap
  · exact absurd (hlist.symm.trans he) nofun
  obtain rfl := Except.ok.inj (hlist.symm.trans hnames)
  have htemps : ∀ n ∈ (host.listing d.names).filter isTempName,
      isTempName n = true ∧ n ∈ d.names := fun n hn => by
    obtain ⟨hlisted, htemp⟩ := List.mem_filter.mp hn
    exact ⟨htemp, Host.mem_listing.mp hlisted⟩
  have hnodup : d.names.Nodup := (Table.nodup_keys d.nodes).filter _
  refine Job.Keeps.bind (safely_removeFiles (fun n hn => (htemps n hn).1)
    (fun n hn => (mem_names.mp (htemps n hn).2).1)
    (((host.listing_perm _).nodup_iff.mpr hnodup).filter _) hs hF (fun d' hs' hgone hsame => ?_)
    fun n hn hb => hP ⟨n, (htemps n hn).1, (mem_names.mp (htemps n hn).2).2, hb⟩)
  have hno : NoTemps d' := by
    intro n hn
    obtain ⟨hthere, hdirect⟩ := mem_names.mp hn
    by_cases hmem : n ∈ (host.listing d.names).filter isTempName
    · exact absurd (hgone n hmem) hthere
    · have hold : n ∈ d.names := mem_names.mpr ⟨hsame n hmem ▸ hthere, hdirect⟩
      simpa [hold] using hmem
  dsimp only
  split
  · exact Job.Keeps.bind (safely_syncNames hs' hF (Job.keeps_pure (hQ _ d' hs' hno)))
  · exact Job.keeps_pure (hQ _ d' hs' hno)

/-! ## Recovery -/

/-- What a recovery leaves: a layer that serves and stands for the ledger on the disk, without
open transactions and temporary files. What was open before is reported in order. -/
structure Recovers (J : η → Files → Prop) (h₀ : η) (before : List Entry) (p : Layer × Report)
    (h : η) (d : Disk) : Prop where
  /-- A recovery commits nothing. -/
  commits : h = h₀
  standsFor : p.1.StandsFor J h d
  serves : p.1.fault = none
  noTemps : NoTemps d
  discarded : p.2.discarded = (openIn before).map Entry.tx

/-- Whether there is nothing in files for a recovery to do. -/
structure IsSettled (threshold : Nat) (F : Files) : Prop where
  logTail : F.logTail = []
  retiredTail : F.retiredTail = []
  closed : openIn F.log = []
  short : F.log = [] ∨ (endedIn F.log).length < threshold

theorem IsSettled.cut {threshold : Nat} (hF : IsSettled threshold F) :
    { F with logTail := [], retiredTail := [] } = F := by
  show Files.mk F.state F.log [] F.retired [] F.hasRetired F.blocked = Files.mk ..
  rw [hF.logTail, hF.retiredTail]

theorem IsSettled.compact {threshold : Nat} (hF : IsSettled threshold F) (hnil : F.log = []) :
    { F with log := [], logTail := [] } = F := by
  show Files.mk F.state [] [] F.retired F.retiredTail F.hasRetired F.blocked = Files.mk ..
  rw [hnil, hF.logTail]

/-- What a recovery makes of files. It does nothing to those that are settled. -/
structure Repaired (F₀ : Files) (threshold : Nat) (p : Layer × Report) (d : Disk) : Prop where
  readable : F₀.state.IsReadable
  reverted : ∀ t ∈ p.2.reverted, t ∈ (openIn F₀.log).map Entry.tx
  used : ∀ t, p.1.isUsed t = true ↔ t ∈ F₀.ids
  state : p.1.state = F₀.restored
  files : ∃ i F, Stores d i F ∧ F₀.Repairs F ∧ IsSettled threshold F ∧
    (IsSettled threshold F₀ → F = F₀)

theorem Repaired.of_mirrors {threshold : Nat} {l : Layer} {report : Report}
    (hreadable : F₀.state.IsReadable)
    (hreverted : ∀ t ∈ report.reverted, t ∈ (openIn F₀.log).map Entry.tx) (hs : Stores d i F)
    (hl : l.Mirrors i F) (hr : F₀.Repairs F) (hF : IsSettled threshold F)
    (hsame : IsSettled threshold F₀ → F = F₀) : Repaired F₀ threshold (l, report) d where
  readable := hreadable
  reverted := hreverted
  used t := hl.isUsed_iff.trans hr.mem_ids
  state := by
    have hclosed : F.restored = F.state := restore_of_closed fun u _ => by simp [hF.closed]
    exact hl.state.trans (hclosed.symm.trans hr.restored)
  files := ⟨i, F, hs, hr, hF, hsame⟩

/-- There is nothing to retire in a history of no entries. -/
theorem unretired_of_nil {H : History} {retired : List String} (htells : H.Tells retired []) :
    H.unretired = [] :=
  List.eq_nil_iff_forall_not_mem.mpr fun e he => List.not_mem_nil (htells.unretired_mem e he).1

section

variable {dir : String} {threshold : Nat} {host : Host} {c : Contents} {p : Plan}

omit [Noting note J] [Lasting J] in
/-- Once the torn lines are cut off, all transactions that are open are to be rolled back. -/
theorem Examined.repairing (hx : Examined dir F c p) (hlegible : F.Legible)
    (hs : Stores d i { F with logTail := [], retiredTail := [] })
    (hF : Files.Coherent J h { F with logTail := [], retiredTail := [] })
    (hr : F.Repairs { F with logTail := [], retiredTail := [] }) (n : Nat) :
    Repairing J h F d i { F with logTail := [], retiredTail := [] }
      ⟨c.state, ⟨dir, logName, i, n⟩, p.history.unretired, []⟩ p.history.begun where
  stores := hs
  coherent := hF
  repairs := hr
  id := rfl
  name := rfl
  logTail := rfl
  retiredTail := rfl
  state := hx.state
  opened := hx.tells.begun.symm
  rest_open := fun e he => hx.tells.begun ▸ he
  count := by rw [hx.tells.begun]
  reverted := nofun
  unretired_mem := fun e he =>
    have hmem := hx.tells.unretired_mem e he
    ⟨hlegible.log_sound e hmem.1, hmem.2, Log.mem_endedIn hmem.1 hmem.2⟩
  unretired := fun t ht => (Decidable.em _).symm.imp_left fun hn => hx.tells.unretired t ht hn

theorem Examined.pending (hx : Examined dir F c p) :
    Pending { F with logTail := [], retiredTail := [] } p.undo p.history.begun := by
  rcases findUndo_ok hx.undo with ⟨u, hu, hsu, hmem⟩ | ⟨hnone, hnot⟩
  · exact .inl ⟨u, hu, hsu, hmem⟩
  · exact .inr ⟨fun u hu => absurd (hnone.symm.trans hu) nofun, hnot⟩

theorem Examined.discarded (hx : Examined dir F c p) :
    p.history.begun.map Entry.tx = (openIn F.log).map Entry.tx := by rw [hx.tells.begun]

omit [Noting note J] [Lasting J] in
/-- As many transactions have ended as the layer will say. -/
theorem Examined.endedInLog (hx : Examined dir F₀ c p) (hr : Repairing J h F₀ d i F r []) :
    p.history.endedInLog + (p.history.begun.map Entry.tx).length = (endedIn F.log).length := by
  rw [hx.tells.endedInLog, hx.tells.begun, List.length_map, ← hr.count, List.length_nil,
    Nat.add_zero]

omit [Noting note J] [Lasting J] in
/-- When all transactions are rolled back, the layer that is opened knows what the files hold. -/
theorem Examined.mirrors (hx : Examined dir F₀ c p) (hr : Repairing J h F₀ d i F r []) :
    Layer.Mirrors ⟨dir, threshold, r.state, r.state.balances, rfl, r.log, [],
      p.history.begun.map Entry.tx ++ p.history.ended ++ p.retired, r.unretired,
      p.history.endedInLog + (p.history.begun.map Entry.tx).length, none⟩ i F where
  id := hr.id
  name := hr.name
  logTail := hr.logTail
  retiredTail := hr.retiredTail
  state := hr.state
  begun := hr.opened.symm
  ended := fun t => by
    have hids := hr.repairs.mem_ids (t := t)
    rw [Files.mem_ids_iff, Files.mem_ids_iff, hr.opened, List.map_nil] at hids
    rw [List.mem_append, List.mem_append, hx.tells.ended, hx.retired, hx.discarded, or_assoc,
      ← hids, or_iff_right List.not_mem_nil]
  unretired_mem := hr.unretired_mem
  unretired := hr.unretired
  endedInLog := hx.endedInLog hr

theorem safely_repair (hs : Stores d i F) (hF : F.Coherent J h) (hx : Examined dir F c p) :
    Safely note J (repair dir threshold host c p)
      (fun q h' d' => Recovers J h F.log q h' d' ∧ Repaired F threshold q d')
      (Only (Hindered F)) h d := by
  unfold repair
  have hcut : F.Repair { F with logTail := [] } := .tail Log.isTorn_nil
  have hF₁ := hF.repair hcut
  refine Job.Keeps.bind (safely_cutLog hx.logTornAt hs hF fun d₁ hs₁ => ?_)
  refine Job.Keeps.bind (safely_cutRetired (F := { F with logTail := [] }) hx.retiredTornAt hs₁ hF₁
    fun d₂ hs₂ hcut₂ => ?_)
  have hF₂ := hF₁.repairs hcut₂
  refine Job.Keeps.bind (safely_openLog hs₂ hF₂ fun n => Job.Keeps.bind ?_)
  have hstart := hx.repairing hF.toLegible hs₂ hF₂ (.head hcut hcut₂) n
  refine safely_rollBack hstart hx.pending (fun r d₃ F₃ hr hnothing => ?_) fun hb =>
    ⟨_, isTempName_tempName "recovery", by decide, hb⟩
  refine Job.Keeps.bind (safely_removeTempFiles hr.stores hr.coherent (fun temps d₄ hs₄ hno => ?_)
    fun ⟨n, htemp, hdirect, hb⟩ => ⟨n, htemp, hdirect, hr.repairs.blocked ▸ hb⟩)
  have hcount := hx.endedInLog hr
  -- Settled files have no torn line to cut off and no open transaction to roll back.
  have hidle : IsSettled threshold F → r.unretired = p.history.unretired ∧ F₃ = F :=
    fun hsettled => by
      obtain ⟨hr', hF'⟩ := hnothing (hx.tells.begun.trans hsettled.closed)
      exact ⟨congrArg Repairs.unretired hr', hF'.trans hsettled.cut⟩
  dsimp only
  split
  · next hdue =>
    refine Job.Keeps.bind (Layer.safely_compact hs₄ hr.coherent (hx.mirrors hr)
      (fun l' n d₅ F₅ hs₅ hmir₅ hc hfew => Job.keeps_pure ⟨?_, ?_⟩) fun _ _ _ hb _ _ _ => ?_)
    · exact ⟨rfl, ⟨_, F₅, hs₅, hr.coherent.repairs hc.repairs, hmir₅, fun _ => hc.begun⟩, hc.fault,
        hno.of_fewer hfew, hx.discarded⟩
    · refine .of_mirrors hx.readable hr.reverted hs₅ hmir₅ (hr.repairs.trans hc.repairs)
        ⟨hmir₅.logTail, hmir₅.retiredTail, by rw [hc.log]; rfl, .inl hc.log⟩ fun hsettled => ?_
      obtain ⟨hunretired, hF₃⟩ := hidle hsettled
      have hnil : F.log = [] := hsettled.short.resolve_right (by rw [← hF₃]; omega)
      rw [hc.same (hunretired.trans (unretired_of_nil (hnil ▸ hx.tells))), hF₃]
      exact hsettled.compact hnil
    · exact ⟨_, isTempName_replacementName, by decide, hr.repairs.blocked ▸ hb⟩
  · next hdue =>
    refine Job.keeps_pure ⟨?_, ?_⟩
    · exact ⟨rfl, ⟨i, F₃, hs₄, hr.coherent, hx.mirrors hr, fun _ => rfl⟩, rfl, hno, hx.discarded⟩
    · exact .of_mirrors hx.readable hr.reverted hs₄ (hx.mirrors hr) hr.repairs
        ⟨hr.logTail, hr.retiredTail, hr.opened, .inr (by omega)⟩ fun hsettled => (hidle hsettled).2

/-- Wherever a recovery stops, the files are consistent, and when it succeeds, they are as
clean as after a commit. It fails only if it may. -/
theorem safely_recoverFiles (hs : Stores d i F) (hF : F.Coherent J h) :
    Safely note J (recover dir threshold host)
      (fun q h' d' => Recovers J h F.log q h' d' ∧ Repaired F threshold q d')
      (Only (MayFail F)) h d := by
  unfold recover
  refine Job.Keeps.bind (safely_examine hs hF (fun c p hx => ?_) .inl)
  exact (safely_repair hs hF hx).mono (fun _ _ _ hq => hq) fun _ _ _ hb => .inr hb

end

/-! ## Recoveries that come to an end -/

/-- Nothing is noted of a log. -/
def unseen (u : Unit) (_ : List Entry) : Unit := u

/-- Whether files are what repairs have made of others. -/
def Within (F₀ : Files) (_ : Unit) (F : Files) : Prop := F₀.Repairs F

instance : Noting unseen (Within F₀) where
  look _ := rfl

instance : Lasting (Within F₀) where
  repair _ hF hr := hF.tail hr

section

variable {dir : String} {threshold : Nat} {host : Host}

/-- What a recovery comes to that is not stopped. -/
theorem outcome_of_run {r : Except Fault (Layer × Report)} {d' : Disk} (hs : Stores d i F)
    (hF : F.Legible) (hrun : (recover dir threshold host).run.run d = (r, d')) :
    match r with
    | .ok p => Recovers (Within F) () F.log p () d' ∧ Repaired F threshold p d'
    | .error _ => MayFail F := by
  have hF' : F.Coherent (Within F) () := ⟨hF, .refl⟩
  have hkeeps : Safely unseen (Within F) (recover dir threshold host) _ _ () d :=
    safely_recoverFiles hs hF'
  obtain ⟨ds, he⟩ := Execution.exists_of_run hrun
  have hend := (he.keeps ⟨i, F, hs, hF'⟩ hkeeps).2 _ rfl
  cases r with
  | ok p => exact hend
  | error f => exact hend

/-- A recovery of legible files succeeds if there is nothing in its way. -/
theorem exists_recover (threshold : Nat) (host : Host) (hs : Stores d i F) (hF : F.Legible)
    (hreadable : F.state.IsReadable) (hfree : ¬ Hindered F) :
    ∃ p d', (recover dir threshold host).run.run d = (.ok p, d') := by
  cases hrun : (recover dir threshold host).run.run d with
  | mk r d' =>
    have hend := outcome_of_run hs hF hrun
    cases r with
    | ok p => exact ⟨p, d', rfl⟩
    | error f => exact absurd hend (not_or.mpr ⟨not_not.mpr hreadable, hfree⟩)

end

end LedgerGate.Recovery

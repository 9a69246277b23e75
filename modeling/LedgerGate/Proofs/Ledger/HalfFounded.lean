import LedgerGate.Proofs.Ledger.Credible

/-!
# Founding that was stopped

Founding makes the log, writes the first state under a temporary name and then gives it its own.
Wherever that is stopped, one of three things is left (`Ledger.Reached`): nothing that has a name
of the ledger, and then it can be founded again; the whole ledger, and then it is recovered; or an
empty log alone. Neither founding nor recovery accepts the last, until the log is removed
(`Ledger.founding_stopped`).
-/

namespace LedgerGate.Ledger

open Log (pathOf)

variable {dir : String} {b : Balances} {s : State} {start d d' : Disk}

/-- Whether a disk has none of the names of a ledger, and no directory has the name of a temporary
file. -/
structure Fresh (d : Disk) : Prop where
  sound : d.Sound
  unused : ∀ n ∈ [stateName, logName, retiredName], d.nodes.get? n = none
  free : ∀ n, isTempName n = true → Disk.isDirect n = true → d.nodes.get? n ≠ some .directory

theorem fresh_empty : Fresh .empty := ⟨Disk.sound_empty, fun _ _ => rfl, fun _ _ _ => nofun⟩

theorem Fresh.genesis_free (h : Fresh d) : d.nodes.get? (tempName "genesis") ≠ some .directory :=
  h.free _ (isTempName_tempName _) (by decide)

/-- A ledger can be founded on a fresh disk. -/
theorem Fresh.exists_found (h : Fresh d) (dir : String) (hgenesis : State.genesis b = .ok s) :
    ∃ e, (found dir b).run.run d = (.ok s, e) :=
  exists_found_of_unused dir h.sound hgenesis h.unused h.genesis_free

/-- Whether of the names of a ledger only that of the log is in use, and the log is empty. -/
structure OnlyLog (d : Disk) : Prop where
  sound : d.Sound
  hasBase : d.hasBase = true
  state : d.nodes.get? stateName = none
  log : ∃ i, d.nodes.get? logName = some (.file i [])
  retired : d.nodes.get? retiredName = none
  genesis_free : d.nodes.get? (tempName "genesis") ≠ some .directory

/-- What the founding of a ledger can leave behind. -/
inductive Reached (s : State) (start : Disk) : Disk → Prop
  | nothing {d : Disk} : Fresh d → Reached s start d
  | onlyLog {d : Disk} : OnlyLog d → Reached s start d
  | whole {d : Disk} {i : Nat} : Stores d i (Files.founded s start) → Reached s start d

/-! ## Where founding can stop -/

/-- An empty log stays alone while a file with the temporary name is written. -/
theorem OnlyLog.opened {j : Nat} (h : OnlyLog d) (ho : Disk.Opened d (tempName "genesis") j d') :
    OnlyLog d' where
  sound := ho.sound
  hasBase := ho.hasBase.trans h.hasBase
  state := (ho.sameBut _ (by decide)).trans h.state
  log := by
    rw [ho.sameBut logName (by decide)]
    exact h.log
  retired := (ho.sameBut _ (by decide)).trans h.retired
  genesis_free := by
    rw [ho.content]
    nofun

theorem OnlyLog.append {j : Nat} {c : List UInt8} (h : OnlyLog d)
    (hfile : d.nodes.get? (tempName "genesis") = some (.file j c)) (bytes : List UInt8) :
    OnlyLog (d.append j bytes) := by
  have hsame := h.sound.sameBut_append bytes hfile
  exact {
    sound := h.sound.append j bytes
    hasBase := h.hasBase
    state := (hsame _ (by decide)).trans h.state
    log := by
      rw [hsame logName (by decide)]
      exact h.log
    retired := (hsame _ (by decide)).trans h.retired
    genesis_free := by
      rw [Disk.get?_append_self bytes hfile]
      nofun }

theorem Fresh.onlyLog {i : Nat} (h : Fresh d) (hb : d.hasBase = true)
    (ho : Disk.Opened d logName i d') : OnlyLog d' where
  sound := ho.sound
  hasBase := ho.hasBase.trans hb
  state := (ho.sameBut _ (by decide)).trans (h.unused _ (by simp))
  log := ⟨i, ho.content⟩
  retired := (ho.sameBut _ (by decide)).trans (h.unused _ (by simp))
  genesis_free := by
    rw [ho.sameBut _ (by decide)]
    exact h.genesis_free

section

variable {α : Type} {u : Unit}

/-- Whether founding leaves only what it can reach behind, wherever a part of it stops. -/
abbrev Reaching (s : State) (start : Disk) (x : Job α) (Q : α → Unit → Disk → Prop) :
    Unit → Disk → Prop :=
  x.Keeps (fun u _ => u) (fun _ => Reached s start) Q fun _ _ _ => True

theorem reaching_perform {path : String} {op : FileOp} {Q : op.Reply → Unit → Disk → Prop}
    {r : Except FileError op.Reply} (happly : op.apply d = (r, d'))
    (htear : ∀ e, op.Tears d e → Reached s start e) (hd : Reached s start d')
    (hQ : ∀ a, r = .ok a → Q a u d') : Reaching s start (Job.perform path op) Q u d := by
  refine Job.keeps_perform htear ?_ ?_ fun _ _ => trivial <;> rw [happly]
  · exact hd
  · exact hQ

theorem reaching_refuseIfThere {Q : Unit → Unit → Disk → Prop} {names : List String}
    (hd : Reached s start d) (hQ : Q () u d) :
    Reaching s start (refuseIfThere dir names) Q u d := by
  induction names with
  | nil => exact Job.keeps_pure hQ
  | cons n rest ih =>
    unfold refuseIfThere
    have hlook : (FileOp.isThere n).IsLook := trivial
    refine Job.Keeps.bind (reaching_perform rfl (fun _ ht => ?_) hd fun there _ => ?_)
    · exact absurd ht (hlook.not_tears _ _)
    split
    · exact Job.keeps_fail trivial
    · exact ih

/-- From an empty log alone, putting the first state in place reaches the whole ledger. -/
theorem reaching_replaceState {i : Nat} {d₁ : Disk} (hfresh : Fresh start)
    (hlog : Disk.Opened { start with hasBase := true } logName i d₁) (honly : OnlyLog d₁) :
    Reaching s start (replaceState dir "genesis" s) (fun _ _ _ => True) u d₁ := by
  unfold replaceState writeState Log.File.writeWhole
  refine Job.Keeps.bind (Job.Keeps.bind ?_)
  cases hc : d₁.create (tempName "genesis") with
  | error e => exact reaching_perform (congrArg (FileOp.opened _) hc) nofun (.onlyLog honly) nofun
  | ok p =>
    obtain ⟨j, d₂⟩ := p
    have htemp := honly.sound.opened_create hc
    have honly₂ := honly.opened htemp
    have honly₃ := honly₂.append htemp.content s.bytes
    refine reaching_perform (congrArg (FileOp.opened _) hc) nofun (.onlyLog honly₂) fun j' hj' => ?_
    obtain rfl := Except.ok.inj hj'
    refine Job.Keeps.bind (reaching_perform rfl ?_ (.onlyLog honly₃) fun _ _ => ?_)
    · rintro e ⟨k, rfl⟩
      exact .onlyLog (honly₂.append htemp.content _)
    refine reaching_perform rfl nofun (.onlyLog honly₃) fun _ _ => ?_
    refine Job.Keeps.bind ?_
    cases hren : (d₂.append j s.bytes).rename (tempName "genesis") stateName with
    | error e =>
      exact reaching_perform (congrArg (FileOp.changed _) hren) nofun (.onlyLog honly₃) nofun
    | ok d₃ =>
      have hwhole : Stores d₃ i (Files.founded s start) :=
        .founded hfresh.unused hlog hc (honly₃.sound.renamed (by decide) hren)
      refine reaching_perform (congrArg (FileOp.changed _) hren) nofun (.whole hwhole) fun _ _ => ?_
      exact reaching_perform rfl nofun (.whole hwhole) fun _ _ => trivial

/-- Wherever founding on a fresh disk stops, it leaves one of three things behind. -/
theorem reaching_found (hfresh : Fresh start) (hgenesis : State.genesis b = .ok s) :
    Reaching s start (found dir b) (fun _ _ _ => True) u start := by
  have hbase : Fresh { start with hasBase := true } :=
    ⟨⟨hfresh.sound.apart, hfresh.sound.fresh⟩, hfresh.unused, hfresh.free⟩
  unfold found
  refine Job.Keeps.bind (reaching_perform rfl nofun (.nothing hbase) fun _ _ => ?_)
  refine Job.Keeps.bind (reaching_refuseIfThere (.nothing hbase) ?_)
  rw [hgenesis]
  refine Job.Keeps.bind (Job.keeps_ofExcept (fun s' hs' => ?_) nofun)
  obtain rfl := Except.ok.inj hs'
  unfold Log.File.create
  refine Job.Keeps.bind (Job.Keeps.bind ?_)
  cases hc : Disk.createNew { start with hasBase := true } logName with
  | error e => exact reaching_perform (congrArg (FileOp.opened _) hc) nofun (.nothing hbase) nofun
  | ok p =>
    obtain ⟨i, d₁⟩ := p
    have hlog := hbase.sound.opened_createNew hc
    have honly := hbase.onlyLog rfl hlog
    refine reaching_perform (congrArg (FileOp.opened _) hc) nofun (.onlyLog honly) fun i' hi' => ?_
    obtain rfl := Except.ok.inj hi'
    refine Job.Keeps.bind (reaching_perform rfl nofun (.onlyLog honly) fun _ _ => Job.keeps_pure ?_)
    refine Job.Keeps.bind (Job.Keeps.mono (reaching_replaceState hfresh hlog honly) ?_ ?_)
    · exact fun _ _ _ _ => Job.keeps_pure trivial
    · exact fun _ _ _ _ => trivial

end

/-! ## What can be done with what was left -/

/-- Founding is refused where there is a log, and leaves everything as it is. -/
theorem OnlyLog.run_found (h : OnlyLog d) (dir : String) (b : Balances) :
    (found dir b).run.run d = (.error (.alreadyFounded (pathOf dir logName)), d) := by
  have hbase : { d with hasBase := true } = d := by rw [← h.hasBase]
  have hnot : d.isThere stateName = false := by simp [Disk.isThere, Table.contains, h.state]
  have hthere : d.isThere logName = true := by
    obtain ⟨i, hi⟩ := h.log
    simp [Disk.isThere, Table.contains, hi]
  unfold found
  refine (Job.run_bind_ok (Job.run_perform_ok .ensureBase (congrArg (Except.ok (), ·) hbase))).trans
    (Job.run_bind_error ?_)
  unfold refuseIfThere
  refine (Job.run_bind_ok (Job.run_perform_ok (.isThere stateName)
    (congrArg (fun b => (Except.ok b, d)) hnot))).trans ?_
  unfold refuseIfThere
  exact (Job.run_bind_ok (Job.run_perform_ok (.isThere logName)
    (congrArg (fun b => (Except.ok b, d)) hthere))).trans rfl

/-- Recovery is refused where there is no state file, and leaves everything as it is. -/
theorem OnlyLog.run_recover (h : OnlyLog d) (dir : String) (threshold : Nat) (host : Host) :
    (recover dir threshold host).run.run d =
      (.error (.stateMissing (pathOf dir stateName)), d) := by
  have hread : d.read stateName = .error .notFound := by rw [Disk.read, h.state]
  have hload : (loadState dir).run.run d = (.error (.stateMissing (pathOf dir stateName)), d) := by
    unfold loadState
    refine (Job.run_bind_ok (a := .error .notFound) (e := d) ?_).trans rfl
    exact congrArg (fun r => (Except.ok r, d)) hread
  unfold recover Recovery.examine
  exact Job.run_bind_error (Job.run_bind_error hload)

/-- When the log is removed, the ledger can be founded. -/
theorem OnlyLog.exists_found_of_removed (h : OnlyLog d) (dir : String)
    (hgenesis : State.genesis b = .ok s) :
    ∃ e, d.remove logName = .ok e ∧ ∃ e', (found dir b).run.run e = (.ok s, e') := by
  obtain ⟨i, hi⟩ := h.log
  cases hremove : d.remove logName with
  | error e =>
    have hnone := Disk.remove_error_iff.mp ⟨e, hremove⟩
    rw [hi] at hnone
    exact absurd hnone (by simp)
  | ok e =>
    have hr := h.sound.removed hremove
    refine ⟨e, rfl, exists_found_of_unused dir hr.sound hgenesis ?_ ?_⟩
    · simp only [List.forall_mem_cons]
      exact ⟨(hr.sameBut _ (by decide)).trans h.state, hr.content,
        (hr.sameBut _ (by decide)).trans h.retired, nofun⟩
    · rw [hr.sameBut _ (by decide)]
      exact h.genesis_free

/-- A ledger that was founded on a fresh disk is recovered with its first state. -/
theorem exists_recover_founded {i : Nat} (dir : String) (hs : Stores d i (Files.founded s start))
    (hfree : ∀ n, isTempName n = true → Disk.isDirect n = true →
      start.nodes.get? n ≠ some .directory)
    (hgenesis : State.genesis b = .ok s) (hread : s.IsReadable) (threshold : Nat) (host : Host) :
    ∃ l report e, (recover dir threshold host).run.run d = (.ok (l, report), e) ∧ l.state = s := by
  have hF := legible_founded hgenesis start
  have hrecovers : ∃ x e, (recover dir threshold host).run.run d = (.ok x, e) :=
    Recovery.exists_recover threshold host hs hF hread
      fun ⟨n, htemp, hdirect, hn⟩ => hfree n htemp hdirect hn
  obtain ⟨⟨l, report⟩, e, hrun⟩ := hrecovers
  obtain ⟨-, hrepaired⟩ := Recovery.outcome_of_run hs hF hrun
  exact ⟨l, report, e, hrun, hrepaired.state.trans (restored_founded start)⟩

theorem givesUp_refuseIfThere {names : List String} : (refuseIfThere dir names).GivesUp := by
  induction names with
  | nil => exact Job.givesUp_pure _
  | cons n rest ih =>
    refine (Job.givesUp_perform _ _).bind fun there => ?_
    split
    · exact Job.givesUp_fail _
    · exact ih

theorem givesUp_found : (found dir b).GivesUp := by
  refine (Job.givesUp_perform _ _).bind fun _ => givesUp_refuseIfThere.bind fun _ => ?_
  refine (Job.givesUp_ofExcept _).bind fun s => Job.GivesUp.bind ?_ fun _ => ?_
  · exact (Job.givesUp_perform _ _).bind fun _ => (Job.givesUp_perform _ _).bind fun _ =>
      Job.givesUp_pure _
  · refine Job.GivesUp.bind ?_ fun _ => Job.givesUp_pure _
    exact Log.File.givesUp_writeWhole.bind fun _ => (Job.givesUp_perform _ _).bind fun _ =>
      Job.givesUp_perform _ _

/-- Whether a disk may be left behind by a program: by a stop before one of its operations or in
the middle of an append, by operations that fail, or at its end. -/
def Leaves {α : Type} (p : Program α) (d d' : Disk) : Prop :=
  (∃ ds r, Execution p d ds d' r) ∨ ∃ fails a, p.Yields fails d a d'

/-- What founding on a fresh disk leaves behind, whatever stops it. -/
theorem reached_of_leaves (hfresh : Fresh start) (hgenesis : State.genesis b = .ok s)
    (h : Leaves (found dir b).run start d) : Reached s start d := by
  have hstop : ∃ ds r, Execution (found dir b).run start ds d r := by
    rcases h with h | ⟨fails, r, h⟩
    · exact h
    · rcases givesUp_found.execution h with ⟨ds, he⟩ | ⟨-, ds, he⟩
      · exact ⟨ds, _, he⟩
      · exact ⟨ds, _, he⟩
  obtain ⟨ds, r, he⟩ := hstop
  have hend := (he.keeps (h := ()) (.nothing hfresh) (reaching_found hfresh hgenesis)).1
  exact hend

/-- A ledger is founded on a fresh disk, and something stops that. As long as there is no log, the
same ledger can be founded again. As soon as there is a state file, the ledger is recovered as it
was to be founded, with version zero. In between there is nothing but an empty log: then no ledger
is founded and none is recovered, nothing changes, and the same ledger can be founded when the log
is removed. -/
theorem founding_stopped (hfresh : Fresh start) (hgenesis : State.genesis b = .ok s)
    (hread : s.IsReadable) (hstop : Leaves (found dir b).run start d) :
    (d.isThere logName = false → ∃ e, (found dir b).run.run d = (.ok s, e)) ∧
    (d.isThere stateName = true → ∀ threshold host, ∃ l report e,
      (recover dir threshold host).run.run d = (.ok (l, report), e) ∧
        l.state = s ∧ l.balances = b.map Decimal.normalize ∧ l.state.version = 0) ∧
    (d.isThere logName = true → d.isThere stateName = false →
      d.content? logName = some [] ∧
      (∀ b', (found dir b').run.run d = (.error (.alreadyFounded (pathOf dir logName)), d)) ∧
      (∀ threshold host, (recover dir threshold host).run.run d =
        (.error (.stateMissing (pathOf dir stateName)), d)) ∧
      ∃ e, d.remove logName = .ok e ∧ ∃ e', (found dir b).run.run e = (.ok s, e')) := by
  have hthere : ∀ n, d.isThere n = (d.nodes.get? n).isSome := fun _ => rfl
  cases reached_of_leaves hfresh hgenesis hstop with
  | nothing h =>
    have hlog : d.nodes.get? logName = none := h.unused _ (by simp)
    have hstate : d.nodes.get? stateName = none := h.unused _ (by simp)
    simp only [hthere, hlog, hstate]
    exact ⟨fun _ => h.exists_found dir hgenesis, nofun, nofun⟩
  | onlyLog h =>
    obtain ⟨i, hi⟩ := h.log
    simp only [hthere, hi, h.state]
    exact ⟨nofun, nofun, fun _ _ => ⟨content?_of_get? hi, h.run_found dir, h.run_recover dir,
      h.exists_found_of_removed dir hgenesis⟩⟩
  | whole h =>
    obtain ⟨j, hj⟩ := h.state
    simp only [hthere, h.log, hj]
    refine ⟨nofun, fun _ threshold host => ?_, nofun⟩
    obtain ⟨l, report, e, hrun, hl⟩ :=
      exists_recover_founded dir h hfresh.free hgenesis hread threshold host
    obtain ⟨-, rfl⟩ := genesis_ok hgenesis
    exact ⟨l, report, e, hrun, hl, by rw [l.agreed, hl], by rw [hl]⟩

/-! ## A ledger of two accounts, stopped -/

/-- The directory that is left behind when the founding of a ledger in an empty one is stopped while
its state is written under the temporary name. -/
def tornDisk (bytes : List UInt8) : Disk :=
  ⟨(Table.empty.insert logName (.file 0 [])).insert (tempName "genesis") (.file 1 bytes), 2, true⟩

theorem execution_found_torn (dir : String) (h : State.genesis b = .ok s) (k : Nat) :
    ∃ ds, Execution (found dir b).run .empty ds (tornDisk (s.bytes.take k)) none := by
  unfold found
  rw [h]
  refine ⟨_, .step (.step (.step (.step (.step (.step (.step (.tear ⟨k, ?_⟩)))))))⟩
  rfl

/-- The state was not written to its end: no ledger is founded or recovered, until the log is
removed. -/
theorem founding_stopped_torn :
    Fresh .empty ∧ State.genesis twoBalances = .ok twoState ∧ twoState.IsReadable ∧
      Leaves (found "data" twoBalances).run .empty (tornDisk (twoState.bytes.take 40)) ∧
      (tornDisk (twoState.bytes.take 40)).content? logName = some [] ∧
      (∀ b, (found "data" b).run.run (tornDisk (twoState.bytes.take 40)) =
        (.error (.alreadyFounded (pathOf "data" logName)), tornDisk (twoState.bytes.take 40))) ∧
      (∀ threshold host,
        (recover "data" threshold host).run.run (tornDisk (twoState.bytes.take 40)) =
          (.error (.stateMissing (pathOf "data" stateName)), tornDisk (twoState.bytes.take 40))) ∧
      ∃ e, (tornDisk (twoState.bytes.take 40)).remove logName = .ok e ∧
        ∃ e', (found "data" twoBalances).run.run e = (.ok twoState, e') := by
  have hread : twoState.IsReadable := by decide
  obtain ⟨ds, hstop⟩ := execution_found_torn "data" genesis_twoBalances 40
  have hleaves : Leaves (found "data" twoBalances).run .empty (tornDisk (twoState.bytes.take 40)) :=
    .inl ⟨ds, none, hstop⟩
  have hend := (founding_stopped fresh_empty genesis_twoBalances hread hleaves).2.2 rfl rfl
  exact ⟨fresh_empty, genesis_twoBalances, hread, hleaves, hend⟩

/-- The directory that is left behind when founding is stopped after the log was made. -/
def loggedDisk : Disk := ⟨Table.empty.insert logName (.file 0 []), 1, true⟩

/-- The founding of a ledger in an empty directory was stopped after the log was made. The same
ledger cannot be founded then, and none is recovered. -/
theorem not_founded_nor_recovered :
    Fresh .empty ∧ State.genesis twoBalances = .ok twoState ∧ twoState.IsReadable ∧
      (∃ ds, Execution (found "data" twoBalances).run .empty ds loggedDisk none) ∧
      (¬ ∃ s e, (found "data" twoBalances).run.run loggedDisk = (.ok s, e)) ∧
      ∀ threshold host, ¬ ∃ l report e,
        (recover "data" threshold host).run.run loggedDisk = (.ok (l, report), e) := by
  have hsound : Disk.Sound { Disk.empty with hasBase := true } := Disk.sound_empty
  have hopened : Disk.Opened .empty logName 0 loggedDisk := hsound.opened_createNew rfl
  have honly : OnlyLog loggedDisk := fresh_empty.onlyLog rfl hopened
  refine ⟨fresh_empty, genesis_twoBalances, by decide, ?_, ?_, ?_⟩
  · unfold found
    rw [genesis_twoBalances]
    exact ⟨_, .step (.step (.step (.step (.step (.stop _ _)))))⟩
  · rintro ⟨s, e, hrun⟩
    rw [honly.run_found] at hrun
    cases hrun
  · rintro threshold host ⟨l, report, e, hrun⟩
    rw [honly.run_recover] at hrun
    cases hrun

end LedgerGate.Ledger

import LedgerGate.Proofs.Ledger.Outcome
import LedgerGate.Proofs.Ledger.Refusal

/-!
# What a recovery takes back

A recovery that succeeds on any directory at all, also one that the ledger itself would not have
left, comes to the state that it has read, or to that state with one transaction taken back
(`Ledger.outcome_of_recover`). Which it is depends on the records alone that it has read.
-/

namespace LedgerGate.Recovery

open Log (Entry Record)

variable {dir : String} {host : Host} {clock : Nat → UInt64} {undo : Option Undo} {u : Undo}
  {r : Repairs} {es : List Entry}

/-! ## Rolling back -/

theorem returns_takeBack_of_ne {t : String} (h : ∀ u, undo = some u → u.tx ≠ t) :
    (takeBack dir undo t r).Returns (· = r) := by
  rw [takeBack_of_ne h]
  exact Job.returns_pure rfl

theorem returns_takeBack_self : (takeBack dir (some u) u.tx r).Returns fun r' =>
    r'.state = r.state.reverted u ∧ r'.reverted = r.reverted ++ [u.tx] := by
  unfold takeBack
  dsimp only
  rw [if_pos rfl]
  exact (Job.returns_true _).bind fun _ _ => Job.returns_pure ⟨rfl, rfl⟩

/-- The state is left alone if the record in it is of none of the transactions. -/
theorem returns_rollBack_of_notMem (h : ∀ u, undo = some u → u.tx ∉ es.map Entry.tx) :
    (rollBack dir clock undo r es).Returns fun r' =>
      r'.state = r.state ∧ r'.reverted = r.reverted := by
  induction es generalizing clock r with
  | nil => exact Job.returns_pure ⟨rfl, rfl⟩
  | cons e rest ih =>
    have hfirst : ∀ u, undo = some u → u.tx ≠ e.tx := fun u hu heq =>
      h u hu (heq ▸ List.mem_map_of_mem List.mem_cons_self)
    have hrest : ∀ u, undo = some u → u.tx ∉ rest.map Entry.tx := fun u hu hm =>
      h u hu (List.mem_cons_of_mem _ hm)
    unfold rollBack
    refine (returns_takeBack_of_ne hfirst).bind fun r₁ hr₁ => ?_
    obtain rfl := hr₁
    exact (Job.returns_true _).bind fun log _ => ih hrest

/-- One transaction is taken back, in its turn. -/
theorem returns_rollBack_of_mem (hmem : u.tx ∈ es.map Entry.tx)
    (hnodup : (es.map Entry.tx).Nodup) :
    (rollBack dir clock (some u) r es).Returns fun r' =>
      r'.state = r.state.reverted u ∧ r'.reverted = r.reverted ++ [u.tx] := by
  induction es generalizing clock r with
  | nil => exact absurd hmem List.not_mem_nil
  | cons e rest ih =>
    obtain ⟨hnot, hnodup⟩ := List.nodup_cons.mp hnodup
    unfold rollBack
    by_cases he : u.tx = e.tx
    · have hrest : ∀ v, some u = some v → v.tx ∉ rest.map Entry.tx := by
        intro v hv
        obtain rfl := Option.some.inj hv
        rwa [he]
      rw [← he]
      refine returns_takeBack_self.bind fun r₁ ⟨hstate, hreverted⟩ => ?_
      refine (Job.returns_true _).bind fun log _ => ?_
      rw [← hstate, ← hreverted]
      exact returns_rollBack_of_notMem hrest
    · have hmem : u.tx ∈ rest.map Entry.tx := (List.mem_cons.mp hmem).resolve_left he
      have hne : ∀ v, some u = some v → v.tx ≠ e.tx := by
        intro v hv
        obtain rfl := Option.some.inj hv
        exact he
      refine (returns_takeBack_of_ne hne).bind fun r₁ hr₁ => ?_
      obtain rfl := hr₁
      exact (Job.returns_true _).bind fun log _ => ih hmem hnodup

/-- What a plan makes of the state, and which transactions it takes back. -/
def Plan.restores (p : Plan) (s : State) : State × List String :=
  match p.undo with
  | some u => (s.reverted u, [u.tx])
  | none => (s, [])

/-- What a repair says is what it was told to do. -/
theorem returns_repair {threshold : Nat} {c : Contents} {p : Plan}
    (hnodup : (p.history.begun.map Entry.tx).Nodup)
    (hundo : ∀ u, p.undo = some u → u.tx ∈ p.history.begun.map Entry.tx) :
    (repair dir threshold host c p).Returns fun q =>
      (q.1.state, q.2.reverted) = p.restores c.state ∧
        q.2.discarded = p.history.begun.map Entry.tx := by
  have hroll : ∀ log, (rollBack dir host.clock p.undo ⟨c.state, log, p.history.unretired, []⟩
      p.history.begun).Returns fun r => (r.state, r.reverted) = p.restores c.state := by
    intro log
    unfold Plan.restores
    split
    · next u hu =>
      rw [hu]
      exact (returns_rollBack_of_mem (hundo u hu) hnodup).mono fun r ⟨hstate, hreverted⟩ =>
        Prod.ext hstate hreverted
    · next hnone =>
      rw [hnone]
      refine (returns_rollBack_of_notMem fun v (hv : none = some v) => ?_).mono
        fun r ⟨hstate, hreverted⟩ => Prod.ext hstate hreverted
      exact absurd hv nofun
  unfold repair
  refine (Job.returns_true _).bind fun _ _ => (Job.returns_true _).bind fun _ _ => ?_
  refine (Job.returns_true _).bind fun log _ => (hroll log).bind fun r hr => ?_
  refine (Job.returns_true _).bind fun temps _ => ?_
  dsimp only
  split
  · refine (Layer.returns_compact _).bind fun q hq => Job.returns_pure ⟨?_, rfl⟩
    rw [hq.1]
    exact hr
  · exact Job.returns_pure ⟨hr, rfl⟩

end LedgerGate.Recovery

namespace LedgerGate.Ledger

open Log (Entry Record pathOf)
open Recovery

variable {dir : String} {d d' : Disk} {c : Contents} {p : Plan} {o : Option Undo}

/-! ## Recoveries that succeed -/

theorem judge_ok {s : State} {log retired : List Record} (h : judge dir s log retired = .ok p) :
    p.history.begun = Log.openIn (log.map Record.entry) ∧
      (p.history.begun.map Entry.tx).Nodup ∧ findUndo dir s p.history.begun = .ok p.undo := by
  unfold judge at h
  split at h
  · exact absurd h nofun
  · obtain ⟨htells, -, hundo⟩ := planFor_ok h
    exact ⟨htells.begun, htells.begun_nodup, hundo⟩

theorem retired_of_readRetired {o : Option Log.Replay} {txs : List String}
    (h : (readRetired dir).run.run d = (.ok (o, txs), d')) : ∃ retired,
      ((d.isThere retiredName = false ∧ retired = []) ∨ ∃ tornAt,
        (Log.replayFile dir retiredName).run.run d = (.ok ⟨retired, tornAt⟩, d)) ∧
      retiredTransactions (pathOf dir retiredName) retired = .ok txs := by
  unfold readRetired at h
  obtain ⟨there, hthere, h⟩ :=
    Job.OnlyLooks.run_bind_eq_ok (by exact Job.onlyLooks_perform _ trivial) h
  obtain rfl : d.isThere retiredName = there := Except.ok.inj (Prod.mk.inj hthere).1
  split at h
  · obtain ⟨r, hreplay, h⟩ := (Log.onlyLooks_replayFile dir _).run_bind_eq_ok h
    obtain ⟨txs', htxs, h⟩ := (Job.onlyLooks_ofExcept _).run_bind_eq_ok h
    obtain ⟨-, rfl⟩ := Prod.mk.inj (Except.ok.inj (Prod.mk.inj h).1)
    exact ⟨r.records, .inr ⟨r.tornAt, hreplay⟩, (Prod.mk.inj htxs).1⟩
  · next hnot =>
    obtain ⟨-, rfl⟩ := Prod.mk.inj (Except.ok.inj (Prod.mk.inj h).1)
    exact ⟨[], .inl ⟨by simpa using hnot, rfl⟩, rfl⟩

/-- An examination that passes has read everything. -/
theorem holds_of_examine (h : (examine dir).run.run d = (.ok (c, p), d')) :
    ∃ retired, Holds dir d c.state c.log.records retired ∧
      judge dir c.state c.log.records retired = .ok p := by
  unfold examine at h
  obtain ⟨s, hload, h⟩ := onlyLooks_loadState.run_bind_eq_ok h
  obtain ⟨there, -, h⟩ := Job.OnlyLooks.run_bind_eq_ok (by exact Job.onlyLooks_perform _ trivial) h
  split at h
  · exact absurd (Prod.mk.inj h).1 nofun
  · obtain ⟨⟨o, txs⟩, hretired, h⟩ := onlyLooks_readRetired.run_bind_eq_ok h
    obtain ⟨log, hlog, h⟩ := (Log.onlyLooks_replayFile dir _).run_bind_eq_ok h
    obtain ⟨plan, hplan, h⟩ := (Job.onlyLooks_ofExcept _).run_bind_eq_ok h
    obtain ⟨rfl, rfl⟩ := Prod.mk.inj (Except.ok.inj (Prod.mk.inj h).1)
    obtain ⟨retired, hread, htxs⟩ := retired_of_readRetired hretired
    refine ⟨retired, ⟨hload, ⟨log.tornAt, hlog⟩, hread⟩, ?_⟩
    rw [judge, htxs]
    exact (Prod.mk.inj hplan).1

theorem Holds.ofBytes? {s : State} {log retired : List Record} {bytes : List UInt8}
    (h : Holds dir d s log retired) (hread : d.read stateName = .ok bytes) :
    State.ofBytes? bytes = some s := by
  have hload := h.state
  rw [run_loadState hread] at hload
  exact State.ofBytes?_of_load (Prod.mk.inj hload).1

/-- The entries of a log that was written are those that are read. -/
theorem entries_of_replayFile {name : String} {es : List Entry} {tail : List UInt8}
    {records : List Record} {tornAt : Option Nat} (hsound : ∀ e ∈ es, e.IsSound)
    (htorn : Log.IsTorn tail) (hread : d.read name = .ok (Log.lines es ++ tail))
    (h : (Log.replayFile dir name).run.run d = (.ok ⟨records, tornAt⟩, d)) :
    records.map Record.entry = es := by
  have hreplay : (Log.replayFile dir name).run.run d = _ :=
    Log.run_replayFile hread (Log.replay_lines (Log.fits_of_sound hsound) htorn)
  obtain ⟨rfl, -⟩ := Log.Replay.mk.inj (Except.ok.inj (Prod.mk.inj (h.symm.trans hreplay)).1)
  exact Log.map_entry_recordsFrom es 0

theorem Holds.entries {s : State} {log retired : List Record} {F : Files}
    (h : Holds dir d s log retired) (hF : F.Legible)
    (hread : d.read logName = .ok (Log.lines F.log ++ F.logTail)) :
    log.map Record.entry = F.log := by
  obtain ⟨tornAt, hlog⟩ := h.log
  exact entries_of_replayFile hF.log_sound hF.log_torn hread hlog

/-- A recovery that succeeds has accepted the records that it has read, and comes to the state that
they say. -/
theorem outcome_of_recover {threshold : Nat} {host : Host} {l : Layer} {report : Report}
    (h : (recover dir threshold host).run.run d = (.ok (l, report), d')) :
    ∃ s log retired p, Holds dir d s log retired ∧ judge dir s log retired = .ok p ∧
      (l.state, report.reverted) = p.restores s ∧
      report.discarded = (Log.openIn (log.map Record.entry)).map Entry.tx := by
  unfold recover at h
  obtain ⟨⟨c, p⟩, hexamine, h⟩ := (onlyLooks_examine dir).run_bind_eq_ok h
  obtain ⟨retired, hholds, hjudge⟩ := holds_of_examine hexamine
  obtain ⟨hbegun, hnodup, hundo⟩ := judge_ok hjudge
  have hmem : ∀ u, p.undo = some u → u.tx ∈ p.history.begun.map Entry.tx := by
    intro u hu
    rcases findUndo_ok hundo with ⟨v, hv, -, hmem⟩ | ⟨hnone, -⟩
    · obtain rfl := Option.some.inj (hu.symm.trans hv)
      exact hmem
    · exact absurd (hu.symm.trans hnone) nofun
  obtain ⟨hstate, hdiscarded⟩ := returns_repair hnodup hmem d _ (by rw [h])
  exact ⟨c.state, c.log.records, retired, p, hholds, hjudge, hstate, hbegun ▸ hdiscarded⟩

/-! ## What a recovery goes by -/

theorem undo_of_open {s : State} {begun : List Entry} {u : Undo}
    (hundo : findUndo dir s begun = .ok o) (hu : s.undo = some u)
    (hopen : u.tx ∈ begun.map Entry.tx) : o = some u := by
  rcases findUndo_ok hundo with ⟨v, rfl, hv, -⟩ | ⟨-, hclosed⟩
  · exact hv.symm.trans hu
  · exact absurd hopen (hclosed u hu)

/-- What is read of legible files is what they hold. -/
theorem eq_of_holds {s : State} {log retired : List Record} {i : Nat} {F : Files}
    (hs : Stores d i F) (hF : F.Legible) (h : Holds dir d s log retired) :
    s = F.state ∧ log.map Record.entry = F.log := by
  obtain ⟨k, hk⟩ := hs.state
  have hstate := h.ofBytes? (by rw [Disk.read, hk])
  have hlog := h.entries hF (by rw [Disk.read, hs.log])
  exact ⟨State.eq_of_ofBytes? hF.intact.storable hstate, hlog⟩

/-- The state and the open entries decide what a recovery makes of legible files. -/
theorem restores_of_recover {threshold : Nat} {host : Host} {l : Layer} {report : Report} {i : Nat}
    {F : Files} (hs : Stores d i F) (hF : F.Legible)
    (h : (recover dir threshold host).run.run d = (.ok (l, report), d')) :
    report.discarded = (Log.openIn F.log).map Entry.tx ∧
      ∃ p : Plan, findUndo dir F.state (Log.openIn F.log) = .ok p.undo ∧
        (l.state, report.reverted) = p.restores F.state := by
  obtain ⟨s, log, retired, p, hholds, hjudge, hstate, hdiscarded⟩ := outcome_of_recover h
  obtain ⟨rfl, hlog⟩ := eq_of_holds hs hF hholds
  obtain ⟨hbegun, -, hundo⟩ := judge_ok hjudge
  rw [hlog] at hbegun hdiscarded
  exact ⟨hdiscarded, p, hbegun ▸ hundo, hstate⟩

/-- A transaction that is open in legible files, and that the record in the state names, is taken
back. -/
theorem reverted_of_recover {threshold : Nat} {host : Host} {l : Layer} {report : Report} {i : Nat}
    {F : Files} {u : Undo} (hs : Stores d i F) (hF : F.Legible) (hu : F.state.undo = some u)
    (hopen : u.tx ∈ (Log.openIn F.log).map Entry.tx)
    (h : (recover dir threshold host).run.run d = (.ok (l, report), d')) :
    l.state = F.state.reverted u ∧ report.reverted = [u.tx] := by
  obtain ⟨-, p, hundo, hstate⟩ := restores_of_recover hs hF h
  rw [Plan.restores, undo_of_open hundo hu hopen] at hstate
  exact Prod.mk.inj hstate

end LedgerGate.Ledger

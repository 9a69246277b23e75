import LedgerGate.Proofs.Ledger.Histories
import LedgerGate.Proofs.Ledger.Overtaking

/-!
# Files of calls that failed

Where the operations of a call have failed, it may have left more in the log than its layer knows
of, and then the log need not be orderly. What is left nevertheless is `Files.Credible`. If a
recovery gets past its checks, the files are legible (`Files.Credible.legible`). If it does not come
to an end, another one will find what it would have found (`Recovery.outcome_of_credible`): a
recovery gives up with the first operation that fails, as if it had been stopped there.
-/

namespace LedgerGate

open Ledger
open Log (Entry Record lines openIn endedIn committedIn IsTorn)

/-! ## Recoveries give up -/

namespace Log

variable {dir name : String} {bytes : List UInt8} {es : List Entry} {f : File}

theorem givesUp_replayFile : (replayFile dir name).GivesUp := by
  refine (Job.givesUp_perform _ _).bind fun bytes => ?_
  cases replay bytes with
  | ok r => exact Job.givesUp_pure r
  | error c => exact Job.givesUp_fail _

theorem File.givesUp_openLog : (File.openLog dir name).GivesUp :=
  (Job.givesUp_perform _ _).bind fun _ => Job.givesUp_pure _

theorem File.givesUp_openOrCreate : (File.openOrCreate dir name).GivesUp := by
  refine (Job.givesUp_perform _ _).bind fun there => ?_
  split
  · exact File.givesUp_openLog
  · have hcreate : (File.create dir name).GivesUp :=
      (Job.givesUp_perform _ _).bind fun _ => (Job.givesUp_perform _ _).bind fun _ =>
        Job.givesUp_pure _
    exact hcreate.bind fun _ => (Job.givesUp_perform _ _).bind fun _ => Job.givesUp_pure _

theorem File.givesUp_appendBytes : (f.appendBytes bytes).GivesUp :=
  (Job.givesUp_perform _ _).bind fun _ => (Job.givesUp_perform _ _).bind fun _ =>
    Job.givesUp_pure _

theorem File.givesUp_writeWhole : (File.writeWhole dir name bytes).GivesUp :=
  (Job.givesUp_perform _ _).bind fun _ => (Job.givesUp_perform _ _).bind fun _ =>
    Job.givesUp_perform _ _

theorem File.givesUp_replaceAll : (f.replaceAll es).GivesUp :=
  File.givesUp_writeWhole.bind fun _ => (Job.givesUp_perform _ _).bind fun _ =>
    (Job.givesUp_perform _ _).bind fun _ => File.givesUp_openLog

end Log

theorem Layer.givesUp_compact (l : Layer) : l.compact.GivesUp := by
  have hrest : (l.log.replaceAll l.begun >>= fun log => pure
      ({ l with log := log, unretired := [], endedInLog := 0 }, l.endedInLog * 2) :
        Job (Layer × Nat)).GivesUp :=
    Log.File.givesUp_replaceAll.bind fun _ => Job.givesUp_pure _
  unfold Layer.compact
  split
  · exact Log.File.givesUp_openOrCreate.bind fun _ =>
      Log.File.givesUp_appendBytes.bind fun _ => hrest
  · exact hrest

namespace Recovery

variable {dir : String}

theorem givesUp_loadState : (loadState dir).GivesUp := by
  refine ⟨fun e => ?_, fun bytes => Job.givesUp_ofExcept _⟩
  cases e <;> exact ⟨_, rfl⟩

theorem givesUp_readRetired : (readRetired dir).GivesUp := by
  refine (Job.givesUp_perform _ _).bind fun there => ?_
  split
  · exact Log.givesUp_replayFile.bind fun r => (Job.givesUp_ofExcept _).bind fun _ =>
      Job.givesUp_pure _
  · exact Job.givesUp_pure _

theorem givesUp_examine : (examine dir).GivesUp := by
  refine givesUp_loadState.bind fun s => (Job.givesUp_perform _ _).bind fun there => ?_
  split
  · exact Job.givesUp_fail _
  · exact givesUp_readRetired.bind fun _ => Log.givesUp_replayFile.bind fun _ =>
      (Job.givesUp_ofExcept _).bind fun _ => Job.givesUp_pure _

theorem givesUp_cutTail {name : String} {tornAt : Option Nat} :
    (cutTail dir name tornAt).GivesUp := by
  cases tornAt with
  | none => exact Job.givesUp_pure _
  | some offset => exact Job.givesUp_perform _ _

theorem givesUp_takeBack {undo : Option Undo} {tx : String} {r : Repairs} :
    (takeBack dir undo tx r).GivesUp := by
  have hreplace : ∀ s, (replaceState dir "recovery" s).GivesUp := fun s =>
    Log.File.givesUp_writeWhole.bind fun _ => (Job.givesUp_perform _ _).bind fun _ =>
      Job.givesUp_perform _ _
  unfold takeBack
  split
  · exact Job.givesUp_pure _
  · split
    · exact (hreplace _).bind fun _ => Job.givesUp_pure _
    · exact Job.givesUp_pure _

theorem givesUp_rollBack {clock : Nat → UInt64} {undo : Option Undo} {r : Repairs}
    {es : List Entry} : (rollBack dir clock undo r es).GivesUp := by
  induction es generalizing clock r with
  | nil => exact Job.givesUp_pure _
  | cons e rest ih =>
    exact givesUp_takeBack.bind fun _ => Log.File.givesUp_appendBytes.bind fun _ => ih

theorem givesUp_removeTempFiles {host : Host} : (removeTempFiles dir host).GivesUp := by
  have hremove : ∀ names, (removeFiles dir names).GivesUp := by
    intro names
    induction names with
    | nil => exact Job.givesUp_pure _
    | cons name rest ih => exact (Job.givesUp_perform _ _).bind fun _ => ih
  refine (Job.givesUp_perform _ _).bind fun names => (hremove _).bind fun _ => ?_
  dsimp only
  split
  · exact (Job.givesUp_perform _ _).bind fun _ => Job.givesUp_pure _
  · exact Job.givesUp_pure _

theorem givesUp_recover {threshold : Nat} {host : Host} :
    (recover dir threshold host).GivesUp := by
  refine givesUp_examine.bind fun cp => ?_
  refine givesUp_cutTail.bind fun _ => givesUp_cutTail.bind fun _ => ?_
  refine Log.File.givesUp_openLog.bind fun log => givesUp_rollBack.bind fun r => ?_
  refine givesUp_removeTempFiles.bind fun temps => ?_
  dsimp only
  split
  · exact (Layer.givesUp_compact _).bind fun _ => Job.givesUp_pure _
  · exact Job.givesUp_pure _

end Recovery

/-! ## Credible files -/

namespace Ledger

variable {dir : String} {d d' : Disk} {i : Nat} {F F' : Files}

/-- Whether files are such as calls leave whose operations may fail. Nothing is said of the order of
the entries in the log. -/
structure Files.Credible (F : Files) : Prop where
  log_sound : ∀ e ∈ F.log, e.IsSound
  log_torn : IsTorn F.logTail
  retired_sound : ∀ e ∈ F.retired, e.IsSound
  retired_torn : IsTorn F.retiredTail
  retired_missing : F.hasRetired = false → F.retired = [] ∧ F.retiredTail = []
  undo_known : ∀ u, F.state.undo = some u → u.tx ∈ F.ids
  intact : F.state.IsIntact
  reverted_intact : ∀ u, F.state.undo = some u → (F.state.reverted u).IsIntact

theorem Files.Legible.credible (hF : F.Legible)
    (hreverted : ∀ u, F.state.undo = some u → (F.state.reverted u).IsIntact) : F.Credible :=
  { hF with reverted_intact := hreverted }

/-- The transactions that are committed according to the logs. -/
def Files.committed (F : Files) : List String := committedIn F.log ++ committedIn F.retired

theorem Files.mem_committed {t : String} :
    t ∈ F.committed ↔ ∃ e : Entry, (e ∈ F.log ∨ e ∈ F.retired) ∧ e.op = .commit ∧ e.tx = t := by
  have hmem : ∀ es : List Entry, t ∈ committedIn es ↔ ∃ e ∈ es, e.op = .commit ∧ e.tx = t := by
    intro es
    simp only [committedIn, List.mem_map, List.mem_filter, decide_eq_true_eq, and_assoc]
  rw [Files.committed, List.mem_append, hmem, hmem]
  simp only [or_and_right, exists_or]

theorem Stores.committedOn (hs : Stores d i F) (hF : F.Credible) :
    Ledger.committedOn d = F.committed := by
  rw [Ledger.committedOn, hs.logEntries_of_sound hF.log_sound hF.log_torn,
    hs.retiredEntries_of_sound hF.retired_sound hF.retired_torn fun h => (hF.retired_missing h).1]
  rfl

/-- A step is logged. -/
theorem Files.Credible.append {e : Entry} (hF : F.Credible) (he : e.IsSound) :
    Files.Credible { F with log := F.log ++ [e] } :=
  { hF with
    log_sound := fun f hf =>
      (List.mem_append.mp hf).elim (hF.log_sound f) fun hf => List.mem_singleton.mp hf ▸ he
    undo_known := fun u hu => Files.mem_ids_append e (hF.undo_known u hu) }

/-- Taking back what was just applied to an intact state gives an intact state. -/
theorem isIntact_reverted_applied {s next : State} {t intentHash payload : String} {δ : Delta}
    (hs : s.IsIntact) (hn : s.applied t intentHash payload δ = .ok next) :
    ∀ u, next.undo = some u → (next.reverted u).IsIntact := by
  intro u hu
  obtain ⟨v, hv, -, hrev⟩ := reverted_applied hs.rooted hn
  obtain rfl := Option.some.inj (hv.symm.trans hu)
  rw [hrev]
  exact { hs with storable := ⟨hs.storable.1, nofun⟩ }

/-- A delta is applied to the state. -/
theorem Files.Credible.apply {t intentHash payload : String} {δ : Delta} {next : State}
    (hF : F.Credible) (ht : t ∈ F.ids) (hconserves : δ.conserves = .ok ())
    (hfresh : ∀ p ∈ δ.changes.entries, (F.state.balances.of p.1).sameValue p.2.before = true)
    (hn : F.state.applied t intentHash payload δ = .ok next) :
    Files.Credible { F with state := next } :=
  { hF with
    undo_known := fun u hu => by
      obtain rfl := Option.some.inj ((State.undo_applied hn).symm.trans hu)
      exact ht
    intact := isIntact_applied hF.intact hconserves hfresh hn
    reverted_intact := isIntact_reverted_applied hF.intact hn }

/-- A repair leaves the state alone or takes its record away. -/
theorem Files.Repairs.undo (h : F.Repairs F') : F'.state = F.state ∨ F'.state.undo = none := by
  induction h with
  | refl => exact .inl rfl
  | tail _ hstep ih =>
    cases hstep with
    | takeBack => exact .inr rfl
    | _ => exact ih

/-- Repaired files that were legible are credible if they were before. -/
theorem Files.Credible.repairs (hF : F.Credible) (hlegible : F.Legible) (h : F.Repairs F') :
    F'.Credible := by
  refine (hlegible.repairs h).credible fun u hu => ?_
  rcases h.undo with heq | hnone
  · rw [heq] at hu ⊢
    exact hF.reverted_intact u hu
  · exact absurd (hnone.symm.trans hu) nofun

/-- The record that recovery takes back matches each open entry of its transaction. -/
theorem undoMatches_of_findUndo {s : State} {begun : List Entry} {o : Option Undo}
    (h : Recovery.findUndo dir s begun = .ok o) (hnodup : (begun.map Entry.tx).Nodup) {u : Undo}
    (hu : s.undo = some u) {e : Entry} (he : e ∈ begun) (htx : e.tx = u.tx) :
    s.undoMatches u e.payloadHash = true := by
  rcases Recovery.findUndo_ok h with ⟨v, rfl, hv, -⟩ | ⟨-, hnot⟩
  · obtain rfl := Option.some.inj (hu.symm.trans hv)
    obtain ⟨b, hb, hbt, hmatches⟩ := Recovery.findUndo_matches h
    obtain rfl : e = b := List.inj_on_of_nodup_map hnodup he hb (htx.trans hbt.symm)
    exact hmatches
  · exact absurd (htx ▸ List.mem_map_of_mem he) (hnot u hu)

/-- The entries that were read from the log of the retired are those that it holds. -/
theorem Stores.retired_of_holds {s : State} {log retired : List Record} (hs : Stores d i F)
    (hF : F.Credible) (h : Holds dir d s log retired) : retired.map Record.entry = F.retired := by
  cases hthere : F.hasRetired with
  | true =>
    obtain ⟨k, hk⟩ := hs.get?_retired hthere
    rcases h.retired with ⟨hmissing, -⟩ | ⟨tornAt, hreplay⟩
    · rw [Disk.isThere, Table.contains, hk] at hmissing
      cases hmissing
    · exact entries_of_replayFile hF.retired_sound hF.retired_torn (by rw [Disk.read, hk]) hreplay
  | false =>
    have hnone := hs.retired_none hthere
    rw [(hF.retired_missing hthere).1]
    rcases h.retired with ⟨-, rfl⟩ | ⟨tornAt, hreplay⟩
    · rfl
    · obtain ⟨bytes, hread⟩ := read_of_replayFile hreplay
      rw [Disk.read, hnone] at hread
      cases hread

/-- Credible files that pass the checks of a recovery are legible. -/
theorem Files.Credible.legible {c : Recovery.Contents} {p : Recovery.Plan} (hF : F.Credible)
    (hs : Stores d i F) (h : (Recovery.examine dir).run.run d = (.ok (c, p), d')) :
    F.Legible := by
  obtain ⟨retired, hholds, hjudge⟩ := holds_of_examine h
  have hstate : c.state = F.state := by
    obtain ⟨k, hk⟩ := hs.state
    exact State.eq_of_ofBytes? hF.intact.storable (hholds.ofBytes? (by rw [Disk.read, hk]))
  have hlog : c.log.records.map Record.entry = F.log := by
    obtain ⟨tornAt, hreplay⟩ := hholds.log
    exact entries_of_replayFile hF.log_sound hF.log_torn (by rw [Disk.read, hs.log]) hreplay
  have hretired := hs.retired_of_holds hF hholds
  obtain ⟨horderly, hended, hopen⟩ := wellFormed_iff.mp (wellFormed_of_judge hjudge)
  obtain ⟨hbegun, hnodup, hundo⟩ := judge_ok hjudge
  rw [hlog] at horderly hbegun hopen
  rw [hretired] at hended hopen
  rw [hstate] at hundo
  exact { hF with
    orderly := horderly
    retired_ended := hended
    open_unretired := hopen
    undo_matches := fun u hu e he htx =>
      undoMatches_of_findUndo hundo hnodup hu (hbegun ▸ he) htx
    restored_intact := by
      rw [Files.restored, restore]
      split
      · next u hu =>
        split
        · exact hF.reverted_intact u hu
        · exact hF.intact
      · exact hF.intact }

end Ledger

/-! ## Recoveries whose operations may fail -/

namespace Recovery

variable {dir : String} {threshold : Nat} {host : Host} {d d' : Disk} {i : Nat} {F : Files}

/-- Wherever a recovery of credible files stops, they are credible, and another one will leave what
this one would have left. -/
theorem credible_of_execution {ds : List Disk} {r : Option (Except Fault (Layer × Report))}
    (hs : Stores d i F) (hF : F.Credible)
    (he : Execution (recover dir threshold host).run d ds d' r) :
    ∃ j F', Stores d' j F' ∧ F'.Credible ∧ F'.restored = F.restored := by
  rcases hexamine : (examine dir).run.run d with ⟨a, e⟩
  obtain rfl : e = d := by rw [← (onlyLooks_examine dir).run d, hexamine]
  cases a with
  | ok cp =>
    have hlegible := hF.legible hs hexamine
    obtain ⟨j, F', hs', hF'⟩ := within_of_execution ⟨i, F, hs, hlegible, .refl⟩ he
    exact ⟨j, F', hs', hF.repairs hlegible hF'.fits, hF'.fits.restored⟩
  | error f =>
    -- What is refused is left as it is.
    obtain rfl : d' = e := by
      change Execution ((examine dir).run >>= ExceptT.bindCont _) e ds d' r at he
      rcases he.of_bind with he | ⟨a, d₁, ds₁, ds₂, he₁, he₂, -⟩
      · exact (Program.OnlyLooks.execution (onlyLooks_examine dir) he).1
      · obtain ⟨rfl, rfl⟩ := Prod.mk.inj (hexamine.symm.trans he₁.run_eq)
        cases he₂ <;> rfl
    exact ⟨i, F, hs, hF, rfl⟩

/-- What a recovery of credible files comes to, whichever operations fail: it comes to the state
that the files say, and the layer mirrors them, or they still say the same. -/
theorem outcome_of_credible {fails : FileOp → Prop} {r : Except Fault (Layer × Report)}
    (hs : Stores d i F) (hF : F.Credible)
    (h : (recover dir threshold host).run.Yields fails d r d') :
    match r with
    | .ok p => p.1.state = F.restored ∧ p.1.begun = [] ∧
        ∃ j F', Stores d' j F' ∧ F'.Credible ∧ F'.Legible ∧ p.1.Mirrors j F'
    | .error _ => ∃ j F', Stores d' j F' ∧ F'.Credible ∧ F'.restored = F.restored := by
  rcases givesUp_recover.execution h with ⟨ds, he⟩ | ⟨⟨f, rfl⟩, ds, he⟩
  · cases r with
    | error f => exact credible_of_execution hs hF he
    | ok p =>
      have hrun := he.run_eq
      obtain ⟨cp, hexamine, -⟩ := (onlyLooks_examine dir).run_bind_eq_ok hrun
      have hlegible := hF.legible hs hexamine
      obtain ⟨hrecovers, hrepaired⟩ := outcome_of_run hs hlegible hrun
      obtain ⟨j, F', hs', hF', hmir, hidle⟩ := hrecovers.standsFor
      exact ⟨hrepaired.state, hidle hrecovers.serves, j, F', hs', hF.repairs hlegible hF'.fits,
        hF'.toLegible, hmir⟩
  · exact credible_of_execution hs hF he

end Recovery
end LedgerGate

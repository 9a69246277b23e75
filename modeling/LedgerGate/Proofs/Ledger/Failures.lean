import LedgerGate.Proofs.Ledger.Trailing

/-!
# Commits that fail

Each line of a commit that may fail has an exit of its own. Whichever operations fail, what the
layer knows of its files is kept (`Layer.yields_commit`), and if the commit ends in a fault, the
files restore the state from before it. There are two exits that come too late for this: the end of
the transaction may be in the log when waiting for it fails, and the log may be compacted after that
end. Of both the transaction is committed.
-/

namespace LedgerGate

open Ledger
open Log (Entry openIn endedIn committedIn)

/-- Whether two states have the same balances, version and last transaction. -/
structure State.Matches (s t : State) : Prop where
  balances : s.balances = t.balances
  version : s.version = t.version
  lastTx : s.lastTx = t.lastTx

theorem State.Matches.refl (s : State) : s.Matches s := ⟨rfl, rfl, rfl⟩

namespace Ledger.Files

variable {F F' : Files} {s next : State} {tx : String}

/-- Whether files restore a state, and a transaction is not committed in them. -/
structure Lacks (F : Files) (tx : String) (s : State) : Prop where
  restored : F.restored.Matches s
  uncommitted : tx ∉ F.committed

/-- Whether files restore the state of a transaction that is committed in them. -/
structure Bears (F : Files) (tx : String) (next : State) : Prop where
  restored : F.restored = next
  committed : tx ∈ F.committed

theorem mem_committed_append {e : Entry} {t : String} :
    t ∈ committed { F with log := F.log ++ [e] } ↔ t ∈ F.committed ∨ e.op = .commit ∧ e.tx = t := by
  rw [mem_committed, mem_committed]
  simp only [List.mem_append, List.mem_singleton]
  constructor
  · rintro ⟨f, (hf | rfl) | hf, hop, ht⟩
    · exact .inl ⟨f, .inl hf, hop, ht⟩
    · exact .inr ⟨hop, ht⟩
    · exact .inl ⟨f, .inr hf, hop, ht⟩
  · rintro (⟨f, hf, hop, ht⟩ | ⟨hop, ht⟩)
    · exact ⟨f, hf.imp_left .inl, hop, ht⟩
    · exact ⟨e, .inl (.inr rfl), hop, ht⟩

end Ledger.Files

namespace Layer

variable {l : Layer} {i : Nat} {F F' : Files} {b e : Entry} {time : UInt64} {δ : Delta}
  {next : State} {intentHash : String}

/-- A layer knows of every transaction that is committed. -/
theorem Trails.isUsed_of_committed (hl : l.Trails i F) {t : String} (ht : t ∈ F.committed) :
    l.isUsed t = true := by
  obtain ⟨e, he, hop, rfl⟩ := Files.mem_committed.mp ht
  refine hl.known e.tx (he.imp (fun he => Log.mem_endedIn he (by simp [hop])) fun he => ?_)
  exact List.mem_map_of_mem he

/-! ## In the middle of a transaction -/

/-- What is known of a layer and its files while a transaction is under way. -/
structure Amid (l : Layer) (i : Nat) (F : Files) (b : Entry) : Prop extends l.Trails i F where
  credible : F.Credible
  only : l.begun = [b]
  sound : b.IsSound
  opened : b.tx ∈ (openIn F.log).map Entry.tx
  uncommitted : b.tx ∉ F.committed
  /-- The record in the state is that of a transaction which is over. -/
  closed : ∀ u, l.state.undo = some u → u.tx ∉ (openIn F.log).map Entry.tx

/-- A transaction of a new identifier begins. -/
theorem Attends.begin (hl : l.Attends i F) (hF : F.Credible) (hserves : l.fault = none)
    (hb : b.IsSound) (hop : b.op = .begin) (hnew : l.isUsed b.tx = false) {log : Log.File}
    (hid : log.id = i) (hname : log.name = logName) :
    (l.noted log b).Amid i { F with log := F.log ++ [b] } b where
  toTrails := hl.toTrails.noted hb hid hname
  credible := hF.append hb
  only := by simp [noted, hop, (hl.rests hserves).begun]
  sound := hb
  opened := by
    have hend : b.tx ∉ endedIn F.log := fun hend => by
      rw [hl.known b.tx (.inl hend)] at hnew
      cases hnew
    rw [Log.openIn_append_begin hop hend]
    simp
  uncommitted := fun hmem => by
    rcases Files.mem_committed_append.mp hmem with hmem | ⟨hcommit, -⟩
    · rw [hl.toTrails.isUsed_of_committed hmem] at hnew
      cases hnew
    · rw [hop] at hcommit
      cases hcommit
  closed := by
    rw [state_noted]
    exact ((hl.rests hserves).append hl.toTrails hop hnew).closed

namespace Amid

variable (ha : l.Amid i F b)
include ha

theorem isUsed : l.isUsed b.tx = true :=
  isUsed_iff.mpr (.inl (by simp [ha.only]))

theorem tx_mem_ids : b.tx ∈ F.ids := ha.toTrails.mem_ids ha.isUsed

/-- As long as the state file is not replaced, a recovery leaves the state as it is. -/
theorem lacks : F.Lacks b.tx l.state := by
  have hrest : F.restored = l.state := by
    rw [ha.state]
    exact restore_of_closed fun u hu => ha.closed u (ha.state.symm ▸ hu)
  exact ⟨hrest ▸ .refl _, ha.uncommitted⟩

theorem closed_append (hop : e.op ≠ .begin) :
    ∀ u, l.state.undo = some u → u.tx ∉ (openIn (F.log ++ [e])).map Entry.tx := by
  intro u hu hmem
  obtain ⟨f, hf, hft⟩ := List.mem_map.mp hmem
  rw [Log.openIn_append_terminal hop] at hf
  exact ha.closed u hu (hft ▸ List.mem_map_of_mem (List.mem_filter.mp hf).1)

/-- The transaction is rolled back before the state file is replaced. -/
theorem lacks_rollback :
    Files.Lacks { F with log := F.log ++ [b.ending .rollback time] } b.tx l.state := by
  have hrest : restore F.state (F.log ++ [b.ending .rollback time]) = l.state := by
    rw [ha.state]
    exact restore_of_closed fun u hu => ha.closed_append (by simp) u (ha.state.symm ▸ hu)
  refine ⟨hrest.symm ▸ .refl _, fun hmem => ?_⟩
  rcases Files.mem_committed_append.mp hmem with hmem | ⟨hcommit, -⟩
  · exact ha.uncommitted hmem
  · cases hcommit

/-- When only the state file is replaced, a recovery takes the transaction back. -/
theorem lacks_installed
    (hn : l.state.applied b.tx intentHash b.payloadHash δ = .ok next) :
    Files.Lacks { F with state := next } b.tx l.state := by
  have hroot : l.state.merkleRoot = l.state.computedRoot := ha.state ▸ ha.credible.intact.rooted
  have hrest : Files.restored { F with state := next } = { l.state with undo := none } :=
    Files.restore_applied hroot ha.opened hn
  refine ⟨?_, ha.uncommitted⟩
  rw [hrest]
  exact ⟨rfl, rfl, rfl⟩

theorem follow (hn : l.state.applied b.tx intentHash b.payloadHash δ = .ok next) :
    (l.follow next).Trails i { F with state := next } :=
  ha.toTrails.follow fun u hu => by
    obtain rfl := Option.some.inj ((State.undo_applied hn).symm.trans hu)
    exact ha.isUsed

end Amid

/-- With its end in the log, the transaction is committed. -/
theorem bears_of_applied (hn : l.state.applied b.tx intentHash b.payloadHash δ = .ok next) :
    Files.Bears { F with state := next, log := F.log ++ [b.ending .commit time] } b.tx next where
  restored := Files.restore_close (by simp) (State.undo_applied hn) rfl
  committed := Files.mem_committed.mpr ⟨(b.ending .commit time), .inl (by simp), rfl, rfl⟩

theorem attends_halt (hl : l.Trails i F) (reason : String) : (l.halt reason).Attends i F :=
  ⟨hl.halt reason, nofun⟩

/-! ## The section that changes the state -/

/-- What is known of a layer in which a transaction was committed. -/
structure HasAdded (l : Layer) (b : Entry) (intentHash : String) (δ : Delta) (l' : Layer)
    (F : Files) : Prop where
  applied : l.state.applied b.tx intentHash b.payloadHash δ = .ok l'.state
  fault : l'.fault = l.fault
  threshold : l'.compactionThreshold = l.compactionThreshold
  endedInLog : l'.endedInLog = l.endedInLog + 1
  committed : l'.HasCommitted F b.tx

variable {c : Committed}

/-- Where the section that changes the state comes to one of its ends, the layer knows of it. -/
theorem Amid.conclude (ha : l.Amid i F b) (hconserves : δ.conserves = .ok ())
    (hfresh : ∀ p ∈ δ.changes.entries, (F.state.balances.of p.1).sameValue p.2.before = true)
    (h : l.Concludes b time intentHash δ F c F') :
    F'.Credible ∧ c.1.Attends i F' ∧
      ((∃ f, c.2 = .error f) ∧ F'.Lacks b.tx l.state ∨
        c.2 = .ok .committed ∧ l.HasAdded b intentHash δ c.1 F') := by
  have hF' : ∀ {next}, l.state.applied b.tx intentHash b.payloadHash δ = .ok next →
      Files.Credible { F with state := next } := fun hn =>
    ha.credible.apply ha.tx_mem_ids hconserves hfresh (ha.state ▸ hn)
  cases h with
  | stopped reason f =>
    exact ⟨ha.credible, attends_halt ha.toTrails reason, .inl ⟨⟨f, rfl⟩, ha.lacks⟩⟩
  | @rolledBack log f hid hname =>
    have hsound := ha.sound.ending .rollback time
    refine ⟨ha.credible.append hsound, ⟨?_, fun _ => ?_⟩, .inl ⟨⟨f, rfl⟩, ha.lacks_rollback⟩⟩
    · exact ha.toTrails.noted hsound (hid.trans ha.id) hname
    · refine ⟨begun_noted ha.only rfl (by simp), ?_⟩
      rw [state_noted]
      exact ha.closed_append (by simp)
  | installed reason f hn =>
    exact ⟨hF' hn, attends_halt (ha.follow hn) reason, .inl ⟨⟨f, rfl⟩, ha.lacks_installed hn⟩⟩
  | @committed next log hn hid hname =>
    have hsound := ha.sound.ending .commit time
    refine ⟨(hF' hn).append hsound, ⟨?_, fun _ => ?_⟩, .inr ⟨rfl, ?_⟩⟩
    · exact (ha.follow hn).noted hsound (hid.trans ha.id) hname
    · -- The record in the new state is that of the transaction which has just ended.
      refine ⟨begun_noted (l := l.follow next) ha.only rfl (by simp), fun u hu hmem => ?_⟩
      rw [state_noted] at hu
      obtain rfl := Option.some.inj ((State.undo_applied hn).symm.trans hu)
      have hend : b.tx ∈ endedIn (F.log ++ [b.ending .commit time]) :=
        Log.mem_endedIn (e := b.ending .commit time) (by simp) (by simp)
      exact Log.notMem_endedIn_of_open hmem hend
    · exact {
        applied := by rwa [state_noted]
        fault := rfl
        threshold := rfl
        endedInLog := rfl
        committed := hasCommitted_noted (l := l.follow next) (F := { F with state := next })
          (e := b.ending .commit time) rfl }

/-- Where an end of the transaction is in the log and the layer does not know of it, the layer
serves no more. -/
theorem Amid.unsynced (ha : l.Amid i F b) (hconserves : δ.conserves = .ok ())
    (hfresh : ∀ p ∈ δ.changes.entries, (F.state.balances.of p.1).sameValue p.2.before = true)
    (h : l.Unsynced b time intentHash δ F c F') :
    F'.Credible ∧ c.1.Attends i F' ∧ (∃ f, c.2 = .error f) ∧
      (F'.Lacks b.tx l.state ∨
        ∃ next, l.state.applied b.tx intentHash b.payloadHash δ = .ok next ∧
          F'.Bears b.tx next) := by
  cases h with
  | rolledBack reason f =>
    have hl' := ha.toTrails.append (e := b.ending .rollback time) fun _ => ha.isUsed
    exact ⟨ha.credible.append (ha.sound.ending .rollback time), attends_halt hl' reason,
      ⟨f, rfl⟩, .inl ha.lacks_rollback⟩
  | committed reason f hn =>
    have hF' := ha.credible.apply ha.tx_mem_ids hconserves hfresh (ha.state ▸ hn)
    have hl' := (ha.follow hn).append (e := b.ending .commit time) fun _ => ha.isUsed
    exact ⟨hF'.append (ha.sound.ending .commit time), attends_halt hl' reason, ⟨f, rfl⟩,
      .inr ⟨_, hn, bears_of_applied hn⟩⟩

/-! ## Whole commits -/

/-- Where nothing is under way, files restore the state of a transaction that is committed. -/
theorem Rests.bears {tx : String} (h : l.Rests F) (hl : l.Trails i F) (ht : l.HasCommitted F tx) :
    F.Bears tx l.state where
  restored := h.restored hl
  committed := by
    obtain ⟨e, hop, htx, he⟩ := ht
    exact Files.mem_committed.mpr ⟨e, he.imp_left And.left, hop, htx⟩

/-- The files after a commit that failed, for files before it: they restore the state from before,
or, if the fault came too late, that of the transaction, which is committed. -/
def LeftBy (s : State) (b : Entry) (intentHash : String) (δ : Delta) (late : Prop)
    (F F' : Files) : Prop :=
  (F'.restored.Matches s ∧ (b.tx ∈ F'.committed → b.tx ∈ F.committed)) ∨
    (late ∧ b.tx ∉ F.committed ∧
      ∃ next, s.applied b.tx intentHash b.payloadHash δ = .ok next ∧ F'.Bears b.tx next)

theorem leftBy_of_lacks {s : State} {late : Prop} (h : F'.Lacks b.tx s) :
    LeftBy s b intentHash δ late F F' :=
  .inl ⟨h.restored, fun hmem => absurd hmem h.uncommitted⟩

theorem Rests.matches (h : l.Rests F) (hl : l.Trails i F) : F.restored.Matches l.state := by
  rw [h.restored hl]
  exact .refl _

/-- What counts is whether the transaction was committed before it began. -/
theorem LeftBy.of_begun {s : State} {late late' : Prop} (hlate : late → late')
    (hnew : b.tx ∉ Files.committed { F with log := F.log ++ [b] })
    (h : LeftBy s b intentHash δ late { F with log := F.log ++ [b] } F') :
    LeftBy s b intentHash δ late' F F' := by
  rcases h with ⟨hmatches, hmem⟩ | ⟨hlate', -, hnext⟩
  · exact .inl ⟨hmatches, fun ht => absurd (hmem ht) hnew⟩
  · have hnew' : b.tx ∉ F.committed := fun ht =>
      hnew (Files.mem_committed_append.mpr (.inl ht))
    exact .inr ⟨hlate hlate', hnew', hnext⟩

/-- Where the fault of a commit may come too late: in waiting for the log, or in a compaction. -/
def MayFailLate (fails : FileOp → Prop) (l : Layer) : Prop :=
  fails (.syncFile l.log.id) ∨ l.compactionThreshold ≤ l.endedInLog + 1

section

variable {fails : FileOp → Prop} {d d' : Disk} {tx : String} {crash : Option CrashPoint}

/-- The last section leaves the transaction committed. It fails only where a compaction is due. -/
theorem yields_finish (hs : Stores d i F) (hF : F.Credible) (hl : l.Attends i F)
    (hserves : l.fault = none) (ht : l.HasCommitted F tx)
    (h : (l.finish crash).Yields fails d c d') :
    ∃ j F', Stores d' j F' ∧ F'.Credible ∧ (c.1.log.id = j → c.1.Attends j F') ∧
      F'.Bears tx l.state ∧ ∀ f, c.2 = .error f → l.compactionThreshold ≤ l.endedInLog := by
  have hbears := (hl.rests hserves).bears hl.toTrails ht
  unfold finish compactIfDue at h
  split at h
  · obtain ⟨rfl, rfl⟩ := h.eq_of_pure
    exact ⟨i, F, hs, hF, fun _ => attends_halt hl.toTrails _, hbears, nofun⟩
  · split at h
    · next hdue =>
      obtain ⟨r, d₁, hcompact, hrest⟩ := h.of_bind
      obtain ⟨j, F', hs', hc⟩ := yields_compact hs (fun h => (hF.retired_missing h).1) hl.toTrails
        hcompact
      have hbears' : F'.Bears tx l.state := by
        obtain ⟨e, hop, htx, he⟩ := ht
        refine ⟨?_, Files.mem_committed.mpr ⟨e, hc.mem he, hop, htx⟩⟩
        have hclosed := (hc.rests (hl.rests hserves)).closed
        rw [hl.state, ← hc.state] at hclosed ⊢
        exact restore_of_closed hclosed
      have hattends := hc.attends hl
      cases r with
      | ok p =>
        obtain ⟨rfl, rfl⟩ := hrest.eq_of_pure
        exact ⟨j, F', hs', hc.credible hF hl.toTrails, fun _ => hattends, hbears', nofun⟩
      | error f =>
        obtain ⟨rfl, rfl⟩ := hrest.eq_of_pure
        refine ⟨j, F', hs', hc.credible hF hl.toTrails, fun hid => ?_, hbears', fun _ _ => hdue⟩
        obtain rfl : j = i := hid.symm.trans hl.id
        exact hattends rfl
    · obtain ⟨rfl, rfl⟩ := h.eq_of_pure
      exact ⟨i, F, hs, hF, fun _ => hl, hbears, nofun⟩

/-- What follows when a transaction has begun. -/
theorem Amid.yields_rest (ha : l.Amid i F b) (hserves : l.fault = none) (hs : Stores d i F)
    (hconserves : δ.conserves = .ok ())
    (hfresh : ∀ p ∈ δ.changes.entries, (F.state.balances.of p.1).sameValue p.2.before = true)
    (h : (l.applyBegun b time intentHash δ crash >>= fun c => match c.2 with
      | .ok .committed => c.1.finish crash
      | r => pure (c.1, r) : Program Committed).Yields fails d c d') :
    ∃ j F', Stores d' j F' ∧ F'.Credible ∧ (c.1.log.id = j → c.1.Attends j F') ∧
      ∀ f, c.2 = .error f → LeftBy l.state b intentHash δ (l.MayFailLate fails) F F' := by
  obtain ⟨c₁, d₁, happly, hrest⟩ := h.of_bind
  obtain ⟨F₁, hs₁, hend⟩ := yields_applyBegun_any hs ha.toAppendsTo happly
  rcases hend with hend | ⟨hfails, hend⟩
  · obtain ⟨hF₁, hl₁, ⟨⟨f, hf⟩, hlacks⟩ | ⟨hok, hadded⟩⟩ := ha.conclude hconserves hfresh hend
    · rw [hf] at hrest
      obtain ⟨rfl, rfl⟩ := hrest.eq_of_pure
      exact ⟨i, F₁, hs₁, hF₁, fun _ => hl₁, fun _ _ => leftBy_of_lacks hlacks⟩
    · rw [hok] at hrest
      obtain ⟨j, F', hs', hF', hl', hbears, hdue⟩ :=
        yields_finish hs₁ hF₁ hl₁ (hadded.fault.trans hserves) hadded.committed hrest
      refine ⟨j, F', hs', hF', hl', fun f hf => .inr ⟨.inr ?_, ha.uncommitted, _, hadded.applied,
        hbears⟩⟩
      have hthreshold := hdue f hf
      rwa [hadded.threshold, hadded.endedInLog] at hthreshold
  · obtain ⟨hF₁, hl₁, ⟨f, hf⟩, hleft⟩ := ha.unsynced hconserves hfresh hend
    rw [hf] at hrest
    obtain ⟨rfl, rfl⟩ := hrest.eq_of_pure
    refine ⟨i, F₁, hs₁, hF₁, fun _ => hl₁, fun _ _ => ?_⟩
    rcases hleft with hlacks | ⟨next, hn, hbears⟩
    · exact leftBy_of_lacks hlacks
    · exact .inr ⟨.inl (ha.id.symm ▸ hfails), ha.uncommitted, next, hn, hbears⟩

/-- The line of a beginning is in the log, and the layer may serve on without knowing of it. -/
theorem Attends.append_begin (hl : l.Attends i F) (hserves : l.fault = none) (hop : b.op = .begin)
    (hnew : l.isUsed b.tx = false) :
    l.Attends i { F with log := F.log ++ [b] } ∧
      ∀ late, LeftBy l.state b intentHash δ late F { F with log := F.log ++ [b] } := by
  have hl' := hl.toTrails.append (e := b) fun hnot => absurd hop hnot
  have hrests := (hl.rests hserves).append hl.toTrails hop hnew
  refine ⟨⟨hl', fun _ => hrests⟩, fun late => .inl ⟨hrests.matches hl', fun ht => ?_⟩⟩
  rcases Files.mem_committed_append.mp ht with ht | ⟨hcommit, -⟩
  · exact ht
  · rw [hop] at hcommit
    cases hcommit

/-- A transaction that is begun and applied. -/
theorem Attends.yields_beginAndApply (hl : l.Attends i F) (hF : F.Credible)
    (hserves : l.fault = none) (hs : Stores d i F) (hb : b.IsSound) (hop : b.op = .begin)
    (hconserves : δ.conserves = .ok ())
    (hfresh : ∀ p ∈ δ.changes.entries, (F.state.balances.of p.1).sameValue p.2.before = true)
    (h : (l.beginAndApply b time intentHash δ crash).Yields fails d c d') :
    ∃ j F', Stores d' j F' ∧ F'.Credible ∧ (c.1.log.id = j → c.1.Attends j F') ∧
      ∀ f, c.2 = .error f → LeftBy l.state b intentHash δ (l.MayFailLate fails) F F' := by
  have hnew : l.refuseStep b.op b.tx = none → l.isUsed b.tx = false := fun hok => by
    rw [hop] at hok
    exact Bool.eq_false_iff.mpr (isUsed_of_refuseStep hok)
  unfold beginAndApply at h
  obtain ⟨r, d₁, hbegin, hrest⟩ := h.of_bind
  rcases yields_logStep_any hs hl.toAppendsTo hbegin with
    ⟨log, rfl, hok, hid, hname, hs₁⟩ | ⟨⟨f, rfl⟩, hleft⟩
  · have ha := hl.begin hF hserves hb hop (hnew hok) hid hname
    have hfault : (l.noted log b).fault = none := by simpa [noted, hop] using hserves
    have hlate : (l.noted log b).MayFailLate fails → l.MayFailLate fails := by
      simp [MayFailLate, noted, hop, hid, hl.id]
    dsimp only at hrest
    split at hrest
    · obtain ⟨rfl, rfl⟩ := hrest.eq_of_pure
      have hlacks := ha.lacks
      rw [state_noted] at hlacks
      exact ⟨i, _, hs₁, ha.credible, fun _ => attends_halt ha.toTrails _,
        fun _ _ => leftBy_of_lacks hlacks⟩
    · obtain ⟨j, F', hs', hF', hl', hleft⟩ := ha.yields_rest hfault hs₁ hconserves hfresh hrest
      rw [state_noted] at hleft
      exact ⟨j, F', hs', hF', hl', fun f hf => (hleft f hf).of_begun hlate ha.uncommitted⟩
  · obtain ⟨rfl, rfl⟩ := hrest.eq_of_pure
    rcases hleft with rfl | ⟨-, hok, hs₁⟩
    · exact ⟨i, F, hs, hF, fun _ => hl, fun _ _ =>
        .inl ⟨(hl.rests hserves).matches hl.toTrails, id⟩⟩
    · obtain ⟨hl', hleft⟩ := hl.append_begin (δ := δ) hserves hop (hnew hok)
      exact ⟨i, _, hs₁, hF.append hb, fun _ => hl', fun _ _ => hleft _⟩

/-- Whichever operations of a commit fail, the layer knows of its files what it has to know, unless
its log is not under the log's name any more. After a fault, the files restore the state from before
it or that of the transaction. -/
theorem yields_commit {host : Host} {q : Consensus} (hs : Stores d i F) (hF : F.Credible)
    (hl : l.Attends i F) (h : (l.commit tx q host crash).Yields fails d c d') :
    ∃ j F', Stores d' j F' ∧ F'.Credible ∧ (c.1.log.id = j → c.1.Attends j F') ∧
      (l.fault = none → ∀ f, c.2 = .error f →
        (F'.restored.Matches l.state ∧ (tx ∈ F'.committed → tx ∈ F.committed)) ∨
          (l.MayFailLate fails ∧ tx ∉ F.committed ∧ ∃ δ next, q.delta = some δ ∧
            l.state.applied tx q.intentHash (payloadHash tx q.intentHash δ) δ = .ok next ∧
            F'.Bears tx next)) := by
  unfold commit at h
  split at h
  · obtain ⟨rfl, rfl⟩ := h.eq_of_pure
    exact ⟨i, F, hs, hF, fun _ => hl, fun hserves f _ =>
      .inl ⟨(hl.rests hserves).matches hl.toTrails, id⟩⟩
  · obtain ⟨rfl, rfl⟩ := h.eq_of_pure
    exact ⟨i, F, hs, hF, fun _ => hl, fun _ _ hf => by cases hf⟩
  · next δ hadm =>
    split at h
    · obtain ⟨rfl, rfl⟩ := h.eq_of_pure
      exact ⟨i, F, hs, hF, fun _ => hl, fun _ _ hf => by cases hf⟩
    · next hstale =>
      obtain ⟨htx, hserves, hq⟩ := admission_eq_some_iff.mp hadm
      obtain ⟨-, hdelta, hconserves⟩ := Consensus.committable?_eq_some hq
      have hfresh : ∀ p ∈ δ.changes.entries,
          (F.state.balances.of p.1).sameValue p.2.before = true := by
        rw [← hl.state, ← l.agreed]
        exact sameValue_of_not_stale hstale
      have hsound : Entry.IsSound ⟨.begin, tx, payloadHash tx q.intentHash δ, host.clock 0⟩ :=
        ⟨(checkTx_ok htx).1, (checkTx_ok htx).2, utf8ByteSize_textDigest_le _⟩
      obtain ⟨j, F', hs', hF', hl', hleft⟩ :=
        hl.yields_beginAndApply hF hserves hs hsound rfl hconserves hfresh h
      refine ⟨j, F', hs', hF', hl', fun _ f hf => (hleft f hf).imp_right ?_⟩
      rintro ⟨hlate, hunc, next, hn, hbears⟩
      exact ⟨hlate, hunc, δ, next, hdelta, hn, hbears⟩

end

end Layer
end LedgerGate

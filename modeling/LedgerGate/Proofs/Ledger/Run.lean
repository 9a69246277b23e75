import LedgerGate.Proofs.Ledger.Accounts
import LedgerGate.Proofs.Ledger.Commit
import LedgerGate.Proofs.Ledger.Founding
import LedgerGate.Proofs.Ledger.Recovery

/-!
# Runs of a ledger

A ledger is founded, and then recovered, committed to and compacted, one call after another.
Each call may be stopped before any file operation and in the middle of an append, and then
the ledger has to be recovered. The disk at the end of a run is thus any disk that is ever
left behind. In every world to which a run leads, the files come from the transactions whose end
was ever a complete line of the log (`Run.sound`).
-/

namespace LedgerGate.Recovery

open Ledger

/-- Wherever a recovery stops, the files come from the committed transactions, and when it
succeeds, they are as clean as after a commit. -/
theorem safely_recover {g : Balances} {δ : Delta} {h : Commits} {d : Disk} {dir : String}
    {threshold : Nat} {host : Host} (hd : Consistent (Accounts g) h d) :
    (recover dir threshold host).Keeps (Commits.observe δ) (Consistent (Accounts g))
      (Recovers (Accounts g) h (logEntries d)) (Only True) h d := by
  obtain ⟨i, F, hs, hF⟩ := hd
  have hkeeps : Safely (Commits.note δ) (Accounts g) (recover dir threshold host) _ _ h d :=
    safely_recoverFiles hs hF
  rw [hs.logEntries hF.toLegible]
  exact hkeeps.mono (fun _ _ _ hq => hq.1) fun _ _ _ _ => trivial

end LedgerGate.Recovery

namespace LedgerGate.Ledger

open Log (Entry openIn committedIn)

/-- A ledger with what was seen of it from the outside. -/
structure World where
  disk : Disk
  /-- The layer that is open, if there is one. -/
  layer : Option Layer
  /-- The transactions whose end was seen as a complete line of the log. -/
  commits : Commits
  /-- The transactions that were said to be committed. -/
  acknowledged : List String

namespace World

/-- The world when a call has left disks behind, and a layer if it came to an end. -/
def after (w : World) (δ : Delta) (ds : List Disk) (d : Disk) (l : Option Layer) : World :=
  { w with disk := d, layer := l, commits := ds.foldl (Commits.observe δ) w.commits }

/-- The world when a transaction may have been said to be committed. -/
def acknowledge (w : World) (tx : String) : Option Layer.Committed → World
  | some (_, .ok .committed) => { w with acknowledged := w.acknowledged ++ [tx] }
  | _ => w

end World

/-- The layer that a recovery opens. -/
def openedLayer : Option (Except Fault (Layer × Recovery.Report)) → Option Layer
  | some (.ok p) => some p.1
  | _ => none

/-- The layer that a compaction leaves. -/
def compactedLayer (l : Layer) : Option (Except Fault (Layer × Nat)) → Option Layer
  | some (.ok p) => some p.1
  | some (.error _) => some l
  | none => none

/-- One call, which may be stopped, or the end of the program. -/
inductive Move (dir : String) : World → World → Prop
  | recover {w : World} {ds : List Disk} {d : Disk}
    {r : Option (Except Fault (Layer × Recovery.Report))} (threshold : Nat) (host : Host) :
    Execution (recover dir threshold host).run w.disk ds d r →
    Move dir w (w.after .empty ds d (openedLayer r))
  | commit {w : World} {l : Layer} {ds : List Disk} {d : Disk} {r : Option Layer.Committed}
    (tx : String) (c : Consensus) (host : Host) (crash : Option CrashPoint) :
    w.layer = some l → Execution (l.commit tx c host crash) w.disk ds d r →
    Move dir w ((w.after (c.delta.getD .empty) ds d (r.map Prod.fst)).acknowledge tx r)
  | compact {w : World} {l : Layer} {ds : List Disk} {d : Disk}
    {r : Option (Except Fault (Layer × Nat))} :
    w.layer = some l → Execution l.compact.run w.disk ds d r →
    Move dir w (w.after .empty ds d (compactedLayer l r))
  | drop (w : World) : Move dir w { w with layer := none }

/-- The worlds after a ledger was founded with balances on a disk with any other files. -/
inductive Run (dir : String) (b : Balances) : World → Prop
  | found {d d' : Disk} {s : State} : d.Sound → (found dir b).run.run d = (.ok s, d') →
    Run dir b ⟨d', none, [], []⟩
  | move {w w' : World} : Run dir b w → Move dir w w' → Run dir b w'

/-! ## What calls uphold -/

/-- Whether what is said of files holds of those on a disk, for which the layer that is open
stands. -/
structure Upholds {η : Type} (J : η → Files → Prop) (h : η) (d : Disk) (layer : Option Layer) :
    Prop where
  consistent : Consistent J h d
  layer : ∀ l, layer = some l → l.StandsFor J h d

namespace Upholds

variable {η : Type} {note : η → List Entry → η} {J : η → Files → Prop} [Noting note J]
  [Lasting J] {h : η} {d d' : Disk} {ds : List Disk} {dir : String} {l : Layer}

theorem recover {threshold : Nat} {host : Host}
    {r : Option (Except Fault (Layer × Recovery.Report))} (hd : Consistent J h d)
    (he : Execution (Ledger.recover dir threshold host).run d ds d' r) :
    Upholds J (ds.foldl (fun h d => note h (logEntries d)) h) d' (openedLayer r) := by
  obtain ⟨i, F, hs, hF⟩ := hd
  have hkeeps : Safely note J (Ledger.recover dir threshold host) _ _ h d :=
    Recovery.safely_recoverFiles hs hF
  obtain ⟨hI, hQ⟩ := he.keeps ⟨i, F, hs, hF⟩ hkeeps
  refine ⟨hI, fun l hl => ?_⟩
  match r, hl, hQ with
  | some (.ok p), hl, hQ =>
    obtain rfl := Option.some.inj hl
    exact (hQ _ rfl).1.standsFor

theorem commit {tx : String} {c : Consensus} [Recording note J (c.delta.getD .empty)]
    {host : Host} {crash : Option CrashPoint} {r : Option Layer.Committed}
    (hd : Consistent J h d) (hl : l.StandsFor J h d)
    (he : Execution (l.commit tx c host crash) d ds d' r) :
    Upholds J (ds.foldl (fun h d => note h (logEntries d)) h) d' (r.map Prod.fst) ∧
      ∀ l', r = some (l', .ok .committed) → ∃ F : Files,
        F.Coherent J (ds.foldl (fun h d => note h (logEntries d)) h) ∧ tx ∈ committedIn F.log := by
  have hkeeps : Layer.SafelyRuns note J (l.commit tx c host crash) (Layer.Settles J tx) h d :=
    Layer.safely_commit hl tx c host crash
  obtain ⟨hI, hQ⟩ := he.keeps hd hkeeps
  refine ⟨⟨hI, fun l' hl' => ?_⟩, fun l' hr => (hQ _ hr).2 rfl⟩
  obtain ⟨p, hp, rfl⟩ := Option.map_eq_some_iff.mp hl'
  exact (hQ p hp).1

theorem compact {r : Option (Except Fault (Layer × Nat))} (hd : Consistent J h d)
    (hl : l.StandsFor J h d) (he : Execution l.compact.run d ds d' r) :
    Upholds J (ds.foldl (fun h d => note h (logEntries d)) h) d' (compactedLayer l r) := by
  obtain ⟨i, F, hs, hF, hmir, hidle⟩ := hl
  have hkeeps : Safely note J l.compact (fun p h d => p.1.StandsFor J h d)
      (fun _ h d => l.StandsFor J h d) h d :=
    Layer.safely_compact hs hF hmir
      (fun l' n d' F' hs' hmir' hc _ => ⟨_, F', hs', hF.repairs hc.repairs, hmir', fun h =>
        hc.begun.trans (hidle (hc.fault.symm.trans h))⟩)
      fun f d' F' _ hs' hr hmir' => ⟨i, F', hs', hF.repairs hr.repairs, hmir', hidle⟩
  obtain ⟨hI, hQ⟩ := he.keeps hd hkeeps
  refine ⟨hI, fun l' hl' => ?_⟩
  match r, hl', hQ with
  | some (.ok p), hl', hQ =>
    obtain rfl := Option.some.inj hl'
    exact hQ _ rfl
  | some (.error f), hl', hQ =>
    obtain rfl := Option.some.inj hl'
    exact hQ _ rfl

end Upholds

/-! ## The invariant -/

/-- Whether a world is as it should be: its files come from the committed transactions, its
layer stands for them, and what was said to be committed is. -/
structure World.Sound (g : Balances) (w : World) : Prop
    extends Upholds (Accounts g) w.commits w.disk w.layer where
  acknowledged : ∀ t ∈ w.acknowledged, t ∈ w.commits.ids

/-- What was committed stays so, and what is added has the delta of the call that is running. -/
theorem Commits.exists_observed (δ : Delta) (h : Commits) (ds : List Disk) : ∃ added : List String,
    ds.foldl (Commits.observe δ) h = h ++ added.map fun t => (t, δ) := by
  induction ds generalizing h with
  | nil => exact ⟨[], (List.append_nil h).symm⟩
  | cons d rest ih =>
    obtain ⟨added, hadded⟩ := ih (h.observe δ d)
    refine ⟨((committedIn (logEntries d)).filter fun t => !h.ids.contains t) ++ added, ?_⟩
    rw [List.foldl_cons, hadded, observe, note, List.append_assoc, ← List.map_append]

theorem Commits.mem_ids_observe {δ : Delta} {h : Commits} {t : String} (ht : t ∈ h.ids)
    (ds : List Disk) : t ∈ Commits.ids (ds.foldl (Commits.observe δ) h) := by
  obtain ⟨added, hadded⟩ := Commits.exists_observed δ h ds
  rw [hadded, ids, List.map_append]
  exact List.mem_append_left _ ht

variable {dir : String} {b g : Balances} {w w' : World}

/-- The first state is coherent with no transaction. -/
theorem coherent_founded {s : State} (h : State.genesis b = .ok s) (start : Disk) :
    (Files.founded s start).Coherent (Accounts (b.map Decimal.normalize)) [] := by
  have hrest := restored_founded (s := s) start
  have hbalances : s.balances = b.map Decimal.normalize ∧ s.version = 0 ∧ s.lastTx = none := by
    obtain ⟨-, rfl⟩ := genesis_ok h
    exact ⟨rfl, rfl, rfl⟩
  have hsum : s.balances.SumTo (Balances.total (b.map Decimal.normalize)) :=
    ⟨(isIntact_genesis h).nonneg, by rw [hbalances.1]⟩
  exact {
    legible_founded h start with
    fits := {
      nodup := List.nodup_nil
      committed := nofun
      kept := nofun
      sumTo := hsum
      restored_sumTo := hrest.symm ▸ hsum
      reflects := hrest.symm ▸ ⟨fun _ => by rw [hbalances.1]; rfl, hbalances.2.1, hbalances.2.2⟩ } }

theorem World.Sound.recover {threshold : Nat} {host : Host} {ds : List Disk} {d : Disk}
    {r : Option (Except Fault (Layer × Recovery.Report))} (hw : w.Sound g)
    (he : Execution (recover dir threshold host).run w.disk ds d r) :
    (w.after .empty ds d (openedLayer r)).Sound g where
  toUpholds := .recover hw.consistent he
  acknowledged t ht := Commits.mem_ids_observe (hw.acknowledged t ht) ds

theorem World.Sound.commit {l : Layer} {tx : String} {c : Consensus} {host : Host}
    {crash : Option CrashPoint} {ds : List Disk} {d : Disk} {r : Option Layer.Committed}
    (hw : w.Sound g) (hl : w.layer = some l)
    (he : Execution (l.commit tx c host crash) w.disk ds d r) :
    ((w.after (c.delta.getD .empty) ds d (r.map Prod.fst)).acknowledge tx r).Sound g := by
  have hcommit : Upholds (Accounts g) (ds.foldl (Commits.observe (c.delta.getD .empty)) w.commits)
      d (r.map Prod.fst) ∧ _ :=
    Upholds.commit hw.consistent (hw.layer l hl) he
  obtain ⟨hupholds, hcommitted⟩ := hcommit
  have hold : ∀ t ∈ w.acknowledged,
      t ∈ Commits.ids (ds.foldl (Commits.observe (c.delta.getD .empty)) w.commits) := fun t ht =>
    Commits.mem_ids_observe (hw.acknowledged t ht) ds
  unfold World.acknowledge
  split
  · refine ⟨hupholds, fun t ht => ?_⟩
    rcases List.mem_append.mp ht with ht | ht
    · exact hold t ht
    · obtain rfl := List.mem_singleton.mp ht
      obtain ⟨F, hF, htx⟩ := hcommitted _ rfl
      exact hF.fits.committed _ htx
  · exact ⟨hupholds, hold⟩

theorem World.Sound.compact {l : Layer} {ds : List Disk} {d : Disk}
    {r : Option (Except Fault (Layer × Nat))} (hw : w.Sound g) (hl : w.layer = some l)
    (he : Execution l.compact.run w.disk ds d r) :
    (w.after .empty ds d (compactedLayer l r)).Sound g where
  toUpholds := .compact hw.consistent (hw.layer l hl) he
  acknowledged t ht := Commits.mem_ids_observe (hw.acknowledged t ht) ds

/-- Every call keeps a world sound, wherever it stops. -/
theorem Move.sound (hm : Move dir w w') (hw : w.Sound g) : w'.Sound g := by
  cases hm with
  | recover threshold host he => exact hw.recover he
  | commit tx c host crash hl he => exact hw.commit hl he
  | compact hl he => exact hw.compact hl he
  | drop => exact ⟨⟨hw.consistent, nofun⟩, hw.acknowledged⟩

/-- Every run leads to a sound world. -/
theorem Run.sound (hr : Run dir b w) : w.Sound (b.map Decimal.normalize) := by
  induction hr with
  | found hd hf =>
    obtain ⟨hgen, i, hs⟩ := stores_of_found hd hf
    exact ⟨⟨⟨i, _, hs, coherent_founded hgen _⟩, nofun⟩, nofun⟩
  | move _ hm ih => exact hm.sound ih

/-! ## Layers that serve -/

/-- The state of a layer that serves is the first one with the committed transactions written
over it. -/
theorem reflects_of_standsFor {l : Layer} {h : Commits} {d : Disk}
    (hl : l.StandsFor (Accounts g) h d) (hserves : l.fault = none) :
    Reflects g h l.state ∧ h.ids.Nodup ∧ l.begun = [] ∧ openIn (logEntries d) = [] := by
  obtain ⟨i, F, hs, hF, hmir, hidle⟩ := hl
  have hnil : openIn F.log = [] := hmir.begun.symm.trans (hidle hserves)
  have hclosed : F.restored = F.state := restore_of_closed fun u _ => by
    rw [hnil]
    exact List.not_mem_nil
  refine ⟨?_, hF.fits.nodup, hidle hserves, ?_⟩
  · rw [hmir.state, ← hclosed]
    exact hF.fits.reflects
  · rw [hs.logEntries hF.toLegible, hnil]

/-- The layer that is open after a run has the state of the transactions that were committed in it,
if it serves. -/
theorem Run.reflects (hr : Run dir b w) {l : Layer} (hl : w.layer = some l)
    (hserves : l.fault = none) : Reflects (b.map Decimal.normalize) w.commits l.state :=
  (reflects_of_standsFor (hr.sound.layer l hl) hserves).1

end LedgerGate.Ledger

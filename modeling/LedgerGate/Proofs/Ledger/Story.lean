import LedgerGate.Proofs.Ledger.Run

/-!
# What runs leave behind

A story is a run with all disks that its calls have left behind, those in the middle of a call
too. What is said of files, and carried along from one look at the log to the next, holds at
the end of every story (`Story.upholds`).
-/

namespace LedgerGate.Ledger

open Log (Entry)

/-- The runs of a ledger that was founded on a disk, with the disks since then in order: those
after each file operation, and those in the middle of an append that was stopped there. -/
inductive Story (dir : String) (b : Balances) (start : Disk) : List Disk → World → Prop
  | found {d : Disk} {s : State} : start.Sound →
    (Ledger.found dir b).run.run start = (.ok s, d) → Story dir b start [d] ⟨d, none, [], []⟩
  | recover {past ds : List Disk} {w : World} {d : Disk}
    {r : Option (Except Fault (Layer × Recovery.Report))} (threshold : Nat) (host : Host) :
    Story dir b start past w →
    Execution (Ledger.recover dir threshold host).run w.disk ds d r →
    Story dir b start (past ++ ds) (w.after .empty ds d (openedLayer r))
  | commit {past ds : List Disk} {w : World} {l : Layer} {d : Disk}
    {r : Option Layer.Committed} (tx : String) (c : Consensus) (host : Host)
    (crash : Option CrashPoint) : Story dir b start past w → w.layer = some l →
    Execution (l.commit tx c host crash) w.disk ds d r →
    Story dir b start (past ++ ds)
      ((w.after (c.delta.getD .empty) ds d (r.map Prod.fst)).acknowledge tx r)
  | compact {past ds : List Disk} {w : World} {l : Layer} {d : Disk}
    {r : Option (Except Fault (Layer × Nat))} : Story dir b start past w → w.layer = some l →
    Execution l.compact.run w.disk ds d r →
    Story dir b start (past ++ ds) (w.after .empty ds d (compactedLayer l r))
  | drop {past : List Disk} {w : World} : Story dir b start past w →
    Story dir b start past { w with layer := none }

variable {dir : String} {b : Balances} {start : Disk} {past : List Disk} {w : World}

/-- A story is that of a run. -/
theorem Story.run (hS : Story dir b start past w) : Run dir b w := by
  induction hS with
  | found hd hf => exact .found hd hf
  | recover threshold host _ he ih => exact .move ih (.recover threshold host he)
  | commit tx c host crash _ hl he ih => exact .move ih (.commit tx c host crash hl he)
  | compact _ hl he ih => exact .move ih (.compact hl he)
  | drop _ ih => exact .move ih (.drop _)

/-- Every run has a story. -/
theorem Run.exists_story (hr : Run dir b w) : ∃ start past, Story dir b start past w := by
  induction hr with
  | found hd hf => exact ⟨_, _, .found hd hf⟩
  | move _ hm ih =>
    obtain ⟨start, past, hS⟩ := ih
    cases hm with
    | recover threshold host he => exact ⟨_, _, hS.recover threshold host he⟩
    | commit tx c host crash hl he => exact ⟨_, _, hS.commit tx c host crash hl he⟩
    | compact hl he => exact ⟨_, _, hS.compact hl he⟩
    | drop => exact ⟨_, _, hS.drop⟩

theorem World.acknowledge_disk (w : World) (tx : String) (r : Option Layer.Committed) :
    (w.acknowledge tx r).disk = w.disk := by
  unfold acknowledge
  split <;> rfl

theorem World.acknowledge_layer (w : World) (tx : String) (r : Option Layer.Committed) :
    (w.acknowledge tx r).layer = w.layer := by
  unfold acknowledge
  split <;> rfl

/-- The disk at the end of a story is one of those that were left behind. -/
theorem Story.disk_mem (hS : Story dir b start past w) : w.disk ∈ past := by
  have hend : ∀ {α : Type} {p : Program α} {past ds : List Disk} {d d' : Disk} {r : Option α},
      d ∈ past → Execution p d ds d' r → d' ∈ past ++ ds := fun hd he =>
    he.disk_mem.elim (fun heq => List.mem_append_left _ (heq ▸ hd)) (List.mem_append_right _)
  induction hS with
  | found => exact List.mem_singleton_self _
  | recover _ _ _ he ih => exact hend ih he
  | commit _ _ _ _ _ _ he ih =>
    rw [World.acknowledge_disk]
    exact hend ih he
  | compact _ _ he ih => exact hend ih he
  | drop _ ih => exact ih

/-- What holds of the files of a ledger that was just founded, and survives what is done to
files, holds at the end of a story, after a look at the log of each disk. -/
theorem Story.upholds {η : Type} {note : η → List Entry → η} {J : η → Files → Prop}
    [Noting note J] [Lasting J] [∀ δ, Recording note J δ] {h : η}
    (hstart : ∀ s, State.genesis b = .ok s → J h (Files.founded s start))
    (hS : Story dir b start past w) :
    Upholds J (past.foldl (fun h d => note h (logEntries d)) h) w.disk w.layer := by
  induction hS with
  | found hd hf =>
    obtain ⟨hgen, i, hs⟩ := stores_of_found hd hf
    have hF : (Files.founded _ start).Coherent J h := ⟨legible_founded hgen start, hstart _ hgen⟩
    rw [List.foldl_cons, List.foldl_nil, hs.look note hF]
    exact ⟨⟨i, _, hs, hF⟩, nofun⟩
  | recover threshold host _ he ih =>
    rw [List.foldl_append]
    exact .recover ih.consistent he
  | @commit past ds w l d r tx c host crash _ hl he ih =>
    rw [List.foldl_append, World.acknowledge_disk, World.acknowledge_layer]
    exact (Upholds.commit ih.consistent (ih.layer l hl) he).1
  | @compact past ds w l d r _ hl he ih =>
    rw [List.foldl_append]
    exact .compact ih.consistent (ih.layer l hl) he
  | drop _ ih => exact ⟨ih.consistent, nofun⟩

end LedgerGate.Ledger

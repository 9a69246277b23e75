import LedgerGate.Proofs.Ledger.Run

/-!
# Reading back

What founding and commits write to the state file is not always read back. The writer takes
every mantissa, and the reader takes only those of 38 digits, so a ledger can be committed to
and never be opened again. A state file is accepted if all balances in it have no more digits
than that, and then as the state that was written (`Ledger.load_of_written`).
-/

namespace LedgerGate.Ledger

open Log (pathOf)

/-- The states that were written to the state file, with the disk at that time: the first one
of a ledger, and those of the transactions that were said to be committed in any run. -/
inductive Written (dir : String) (b : Balances) : State → Disk → Prop
  | found {d d' : Disk} {s : State} : d.Sound → (found dir b).run.run d = (.ok s, d') →
    Written dir b s d'
  | commit {w : World} {l l' : Layer} {d : Disk} {tx : String} {c : Consensus} {host : Host}
    {crash : Option CrashPoint} : Run dir b w → w.layer = some l →
    (l.commit tx c host crash).run w.disk = ((l', .ok .committed), d) → Written dir b l'.state d

variable {dir : String} {b : Balances} {s : State} {d : Disk}

theorem Written.genuine (h : Written dir b s d) :
    d.content? stateName = some s.bytes ∧ Genuine (b.map Decimal.normalize) s := by
  cases h with
  | @found d₀ _ _ hd hf =>
    obtain ⟨hgen, i, hs⟩ := stores_of_found hd hf
    obtain ⟨j, hj⟩ := hs.state
    exact ⟨content?_of_get? hj, (coherent_founded hgen d₀).genuine⟩
  | @commit w l l' d tx c host crash hr hl hc =>
    have hw := hr.sound
    have hkeeps : Layer.SafelyRuns (Commits.note (c.delta.getD .empty)) (Accounts _)
        (l.commit tx c host crash) (Layer.Settles (Accounts _) tx) w.commits w.disk :=
      Layer.safely_commit (hw.layer l hl) tx c host crash
    obtain ⟨ds, he⟩ := Execution.of_run (l.commit tx c host crash) w.disk
    rw [hc] at he
    obtain ⟨i, F, hs, hF, hmir, -⟩ := ((he.keeps hw.consistent hkeeps).2 _ rfl).1
    obtain ⟨j, hj⟩ := hs.state
    rw [hmir.state]
    exact ⟨content?_of_get? hj, hF.genuine⟩

/-- A state that was written is in the state file, and it is loaded from there if no balance in
it or in its record has more than 38 digits. If one has, neither loading nor recovery accepts
the file, and nothing on the disk is changed. -/
theorem load_of_written (h : Written dir b s d) :
    d.content? stateName = some s.bytes ∧
      (s.IsReadable → (loadState dir).run.run d = (.ok s, d)) ∧
      (¬ s.IsReadable → ∀ threshold host,
        (loadState dir).run.run d =
            (.error (.stateMalformed (pathOf dir stateName) "not a ledger state"), d) ∧
          (recover dir threshold host).run.run d =
            (.error (.stateMalformed (pathOf dir stateName) "not a ledger state"), d)) := by
  obtain ⟨hfile, hgenuine⟩ := h.genuine
  have hload : (loadState dir).run.run d = (State.load (pathOf dir stateName) s.bytes, d) :=
    run_loadState (Disk.read_of_content? hfile)
  rw [hgenuine.load_bytes] at hload
  refine ⟨hfile, fun hread => ?_, fun hnot threshold host => ?_⟩
  · rw [hload, if_pos hread]
  · rw [if_neg hnot] at hload
    exact ⟨hload, Job.run_bind_error (Job.run_bind_error hload)⟩

/-- Balances with one of 39 digits. -/
def longBalances : Balances :=
  Table.ofList [("alice", { (0 : Decimal) with mantissa := tenTo 38, mantissa_fits := by decide })]

/-- The first state of a ledger with a balance of 39 digits. -/
def longState : State :=
  ⟨0, longBalances.map Decimal.normalize, State.rootOf (longBalances.map Decimal.normalize), none,
    none, none⟩

theorem genesis_longBalances : State.genesis longBalances = .ok longState := by
  have hnone : longBalances.entries.find? (fun p => p.2.isNegative) = none := by decide
  rw [State.genesis, hnone]
  rfl

/-- A ledger that was founded with a balance of 39 digits cannot be opened. -/
theorem load_of_written_longBalances :
    (found "data" longBalances).run.run .empty = (.ok longState, foundedDisk longState) ∧
      ∀ threshold host, (recover "data" threshold host).run.run (foundedDisk longState) =
        (.error (.stateMalformed "data/state.json" "not a ledger state"),
          foundedDisk longState) := by
  have hfound := found_empty "data" genesis_longBalances
  have hlong : ¬ longState.IsReadable := by decide
  have hpath : pathOf "data" stateName = "data/state.json" := by decide
  refine ⟨hfound, fun threshold host => ?_⟩
  rw [← hpath]
  exact ((load_of_written (.found Disk.sound_empty hfound)).2.2 hlong threshold host).2

end LedgerGate.Ledger

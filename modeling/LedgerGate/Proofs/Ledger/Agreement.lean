import LedgerGate.Proofs.Ledger.Tampering
import LedgerGate.Proofs.Merkle.Paths

/-!
# Memory and disk

After every call of a run the layer that is open and the state file say the same: one state, with
balances in their normal forms and with the root of these, against which every proof verifies that
the layer gives (`Ledger.agreement_of_run`). The balances that are put back when a transaction is
taken back come from its record, so these are in their normal forms too (`State.IsNormal`).
-/

namespace LedgerGate

/-! ## Normal forms -/

/-- Whether all balances of a state are in their normal forms, those in its record too. -/
structure State.IsNormal (s : State) : Prop where
  balances : ∀ d ∈ s.balances.values, d.IsNormal
  prior : ∀ u, s.undo = some u → ∀ v ∈ u.priorBalances.values, ∀ d, v = some d → d.IsNormal

namespace State.IsNormal

variable {b : Balances} {s next : State} {u : Undo} {tx intentHash payload : String} {δ : Delta}

theorem genesis (h : State.genesis b = .ok s) : s.IsNormal := by
  obtain ⟨-, rfl⟩ := Ledger.genesis_ok h
  refine ⟨fun d hd => ?_, fun u hu => absurd hu nofun⟩
  simp only [Table.values, Table.map, List.map_map, List.mem_map] at hd
  obtain ⟨p, -, rfl⟩ := hd
  exact Decimal.normalize_normalize p.2

/-- A transaction writes normal forms, and records balances that were in their normal forms. -/
theorem applied (hs : s.IsNormal) (h : s.applied tx intentHash payload δ = .ok next) :
    next.IsNormal := by
  refine ⟨fun d hd => ?_, fun u hu v hv d hvd => ?_⟩
  · rw [State.balances_applied h] at hd
    rcases State.mem_values_writeChanges hd with hold | ⟨p, -, rfl⟩
    · exact hs.balances d hold
    · exact Decimal.normalize_normalize _
  · obtain rfl := Option.some.inj (hu.symm.trans (State.undo_applied h))
    have hentries := Table.entries_ofList_map δ.changes fun p => s.balances.get? p.1
    dsimp only at hv
    rw [Table.values, hentries, List.map_map] at hv
    obtain ⟨p, -, hp⟩ := List.mem_map.mp hv
    have hbalance : s.balances.get? p.1 = some d := hp.trans hvd
    exact hs.balances d (List.mem_map.mpr ⟨_, Table.get?_eq_some_iff.mp hbalance, rfl⟩)

theorem reverted (hs : s.IsNormal) (hu : s.undo = some u) : (s.reverted u).IsNormal := by
  refine ⟨fun d hd => ?_, fun v hv => absurd hv nofun⟩
  rcases State.mem_values_putBack hd with hold | ⟨p, hp, hpd⟩
  · exact hs.balances d hold
  · exact hs.prior u hu p.2 (List.mem_map_of_mem hp) d hpd

end State.IsNormal

namespace Ledger

/-- Whether the balances in the state file are in their normal forms. -/
def Normal (_ : Unit) (F : Files) : Prop := F.state.IsNormal

instance : Noting Recovery.unseen Normal where
  look _ := rfl

instance : Lasting Normal where
  repair := by
    intro h F F' hF hJ hr
    cases hr with
    | takeBack hu hopen => exact hJ.reverted hu
    | _ => exact hJ

instance {δ : Delta} : Recording Recovery.unseen Normal δ where
  change := by
    intro h F F' hF hJ hc
    cases hc with
    | apply hopen hpayload hclosed hconserves hfresh hn => exact hJ.applied hn
    | _ => exact hJ

variable {dir : String} {b : Balances} {w : World} {l : Layer}

theorem Run.upholds_normal (hr : Run dir b w) : Upholds Normal () w.disk w.layer := by
  obtain ⟨start, past, hS⟩ := hr.exists_story
  have hupholds : Upholds Normal
      (past.foldl (fun u d => Recovery.unseen u (logEntries d)) ()) w.disk w.layer :=
    hS.upholds fun s hgen => State.IsNormal.genesis hgen
  exact hupholds

/-- What the state file of coherent files holds. -/
theorem Stores.agreement {d : Disk} {i : Nat} {F : Files} (hs : Stores d i F)
    (hF : F.Coherent Normal ()) : d.content? stateName = some F.state.bytes ∧
      (∀ x ∈ F.state.balances.values, x.IsNormal) ∧
      F.state.merkleRoot = State.rootOf F.state.balances := by
  obtain ⟨j, hj⟩ := hs.state
  exact ⟨content?_of_get? hj, hF.fits.balances, hF.intact.rooted⟩

/-- A layer gives a proof for each account that there is and for no other, and it verifies. -/
theorem verifies_proof? (l : Layer) (hroot : l.state.merkleRoot = State.rootOf l.state.balances)
    (account : String) : (l.proof? account).isSome = l.balances.contains account ∧
      ∀ p, l.proof? account = some p → p.account = account ∧
        l.balances.get? account = some p.balance ∧
        p.verifies Sha256.digest l.state.merkleRoot = true := by
  refine ⟨Merkle.isSome_build? Sha256.length_digest l.balances account, fun p hp => ?_⟩
  obtain ⟨haccount, hbalance, hverifies⟩ := Merkle.verifies_of_build? Sha256.length_digest hp
  rw [hroot, ← l.agreed]
  exact ⟨haccount, hbalance, hverifies⟩

/-- After every call of a run, the state file is that of a state with normalized balances and
their root. The layer that is open has this state and these balances, and gives a proof for each
account that verifies against this root. -/
theorem agreement_of_run (hr : Run dir b w) : ∃ s : State,
    w.disk.content? stateName = some s.bytes ∧ (∀ d ∈ s.balances.values, d.IsNormal) ∧
      s.merkleRoot = State.rootOf s.balances ∧
      ∀ l, w.layer = some l → l.state = s ∧ l.balances = s.balances ∧
        ∀ account, (l.proof? account).isSome = s.balances.contains account ∧
          ∀ p, l.proof? account = some p → p.account = account ∧
            s.balances.get? account = some p.balance ∧
            p.verifies Sha256.digest s.merkleRoot = true := by
  have hupholds := hr.upholds_normal
  cases hlayer : w.layer with
  | none =>
    obtain ⟨i, F, hs, hF⟩ := hupholds.consistent
    obtain ⟨hfile, hnormal, hroot⟩ := hs.agreement hF
    exact ⟨F.state, hfile, hnormal, hroot, nofun⟩
  | some l =>
    obtain ⟨i, F, hs, hF, hmir, -⟩ := hupholds.layer l hlayer
    obtain ⟨hfile, hnormal, hroot⟩ := hs.agreement hF
    rw [← hmir.state] at hfile hnormal hroot
    refine ⟨l.state, hfile, hnormal, hroot, fun l' hl' => ?_⟩
    obtain rfl := Option.some.inj hl'
    refine ⟨rfl, l.agreed, fun account => ?_⟩
    rw [← l.agreed]
    exact verifies_proof? l hroot account

/-- When a gift was interrupted after its state had got into the state file, the proof of what
carol was given verifies. -/
theorem agreement_of_run_giftInterrupted : ∃ w l p, Run "data" twoBalances w ∧ w.layer = some l ∧
    l.openTransactions = ["t1"] ∧ w.disk.content? stateName = some l.state.bytes ∧
    l.proof? "carol" = some p ∧ p.balance = .ofInt64 40 ∧
    p.verifies Sha256.digest l.state.merkleRoot = true := by
  obtain ⟨past₀, w₀, l₀, l', d, h⟩ := exists_giftInterrupted
  obtain ⟨past, w, hS, -, hl, -⟩ := h.exists_story
  obtain ⟨_, _, hint, -⟩ := h.left
  obtain ⟨s, hfile, -, -, hlayer⟩ := agreement_of_run hS.run
  obtain ⟨rfl, hbalances, hproofs⟩ := hlayer l' hl
  obtain ⟨hthere, hverifies⟩ := hproofs "carol"
  have hcarol : l'.state.balances.get? "carol" = some (.ofInt64 40) := by
    rw [← hbalances, h.given]
    decide
  rw [Table.contains, hcarol] at hthere
  obtain ⟨p, hp⟩ := Option.isSome_iff_exists.mp hthere
  obtain ⟨-, hbalance, hverified⟩ := hverifies p hp
  exact ⟨w, l', p, hS.run, hl, congrArg (List.map Log.Entry.tx) hint.begun, hfile, hp,
    Option.some.inj (hbalance.symm.trans hcarol), hverified⟩

end Ledger
end LedgerGate

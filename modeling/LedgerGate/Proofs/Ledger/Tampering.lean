import LedgerGate.Proofs.Ledger.Interruption
import LedgerGate.Proofs.Ledger.Invisibility
import LedgerGate.Proofs.Ledger.Payload

/-!
# A changed record

When a transaction is interrupted after its state has got into the state file, the record in that
file decides what recovery takes back. A record that names the transaction is taken back only if
it has the payload digest that was logged, and then the balances before the transaction come back,
whoever has written the record. What the digest does not cover is taken as it stands in the record:
the version, the identifiers, and whether an account that had nothing was there. A record that
names another transaction, or none, is not looked at (`Ledger.recover_of_tampered`).
-/

namespace LedgerGate.Ledger

open Log (Entry Record openIn pathOf)
open Recovery (Hindered Report findUndo findUndo_ok findUndo_matches)

variable {dir : String} {b : Balances} {w : World} {l l' l'' : Layer} {tx : String} {c : Consensus}
  {d d' e : Disk} {host host' : Host} {threshold : Nat} {i : Nat} {F : Files} {report : Report}
  {o : Option Undo} {bytes : List UInt8} {past : List Disk}

/-! ## What recovery makes of another record -/

/-- Whether the checks of recovery let a record pass in the state file of legible files. -/
structure Passes (F : Files) (u : Undo) : Prop where
  known : u.tx ∈ F.ids
  storable : u.IsStorable
  nonneg : ∀ v ∈ u.priorBalances.values, ∀ d ∈ v, d.isNegative = false
  payload : ∀ e ∈ openIn F.log, e.tx = u.tx → F.state.undoMatches u e.payloadHash = true

/-- What the accounts of the gift had before, in another spelling. -/
def respelledBalances : Table (Option Decimal) :=
  Table.ofList [("alice", some { (0 : Decimal) with
    mantissa := 1000, scale := 1, mantissa_fits := by decide, scale_le := by decide }),
    ("carol", some 0)]

/-- A record of a transaction that reads like the gift. What is not digested is made up. -/
def respelledRecord (tx : String) (version : Nat) : Undo :=
  ⟨tx, "gift", version, some "t1", none, respelledBalances⟩

theorem normalChanges_respelledRecord {s : State} (tx : String) (version : Nat)
    (hs : s.balances = givenBalances) :
    (s.undoneDelta (respelledRecord tx version)).normalChanges = gift.normalChanges := by
  show Delta.normalChanges ⟨Table.ofList (respelledBalances.entries.map fun p =>
    (p.1, ⟨p.2.getD 0, s.balances.of p.1⟩))⟩ = _
  rw [hs]
  decide

/-- A layer knows the transactions that were said to be committed. -/
theorem Run.isUsed_of_acknowledged (hr : Run dir b w) (hl : w.layer = some l) {t : String}
    (ht : t ∈ w.acknowledged) : l.isUsed t = true := by
  have hw := hr.sound
  obtain ⟨i, F, -, hF, hmir, -⟩ := hw.layer l hl
  rw [hmir.isUsed_iff, Files.mem_ids_iff]
  exact .inr (hF.fits.kept t (hw.acknowledged t ht))

/-- The layer still knows the payment. -/
theorem GiftInterrupted.isUsed (h : GiftInterrupted past w l l' d) : l'.isUsed "t0" = true := by
  obtain ⟨past', w', hS, -, hl, hacknowledged, -⟩ := h.exists_story
  exact hS.run.isUsed_of_acknowledged hl (hacknowledged ▸ List.mem_singleton_self _)

theorem GiftInterrupted.passes (h : GiftInterrupted past w l l' d) (hmir : l'.Mirrors i F)
    {version : Nat} (hversion : version ≤ State.maxVersion) (htx : tx = "t0" ∨ tx = "t1") :
    Passes F (respelledRecord tx version) := by
  obtain ⟨_, _, hint, -⟩ := h.left
  have hopen : openIn F.log = [⟨.begin, "t1", payloadHash "t1" "gift" gift, 0⟩] :=
    hmir.begun.symm.trans hint.begun
  constructor
  · rcases htx with rfl | rfl
    · exact hmir.isUsed_iff.mp h.isUsed
    · rw [Files.mem_ids_iff, hopen]
      exact .inl (List.mem_singleton_self _)
  · exact hversion
  · show ∀ v ∈ respelledBalances.values, ∀ d ∈ v, d.isNegative = false
    decide
  · intro e he hetx
    rw [hopen] at he
    obtain rfl := List.mem_singleton.mp he
    obtain rfl : "t1" = tx := hetx
    rw [← hmir.state, State.undoMatches, decide_eq_true_eq]
    exact payloadHash_congr "t1" "gift"
      (normalChanges_respelledRecord "t1" version (l'.agreed.symm.trans h.given))

end LedgerGate.Ledger

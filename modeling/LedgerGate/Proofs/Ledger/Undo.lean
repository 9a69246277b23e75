import LedgerGate.Proofs.Ledger.Files
import LedgerGate.Proofs.Ledger.Payload

/-!
# Taking the last transaction back

A state whose root is that of its balances is given back by the record that applying a delta
leaves, whether the delta makes accounts, empties them or leaves them as they were, and however its
amounts are written (`State.undo_inverts_applied`). What is read off the record has the text of the
delta that was applied exactly if the delta was made on the balances.
-/

namespace LedgerGate.State

variable {s next : State} {tx intentHash payload : String} {δ : Delta} {u : Undo}

/-- The text that is digested of what a record takes back is that of the delta that was applied
exactly if every balance before is in the delta, in whatever spelling. -/
theorem payloadPreimage_undoneDelta_eq_iff (h : s.applied tx intentHash payload δ = .ok next)
    (hu : next.undo = some u) :
    payloadPreimage tx intentHash (next.undoneDelta u) = payloadPreimage tx intentHash δ ↔
      ∀ p ∈ δ.changes.entries, p.2.before.value = (s.balances.of p.1).value := by
  rw [← normalChanges_undoneDelta_eq_iff h hu]
  constructor
  · intro htext
    exact (payloadPreimage_injective htext).2.2
  · exact payloadPreimage_congr tx intentHash

/-- Applying a delta records how to get back to the state from before, which is all of it but its
own record. Accounts that the delta does not name stay as they are, and where the delta was made on
the balances, what is read off the record has the payload digest of the delta. -/
theorem undo_inverts_applied (hroot : s.merkleRoot = s.computedRoot)
    (h : s.applied tx intentHash payload δ = .ok next) :
    ∃ u, next.undo = some u ∧ next.reverted u = { s with undo := none } ∧
      (∀ account, δ.changes.get? account = none →
        next.balances.get? account = s.balances.get? account) ∧
      ((∀ p ∈ δ.changes.entries, p.2.before.value = (s.balances.of p.1).value) →
        payloadHash tx intentHash (next.undoneDelta u) = payloadHash tx intentHash δ) := by
  obtain ⟨u, hu, -, hreverted⟩ := Ledger.reverted_applied hroot h
  refine ⟨u, hu, hreverted, fun account hother => ?_, fun hbefore => ?_⟩
  · rw [get?_applied h, hother, Option.map_none, Option.none_or]
  · have htext := (payloadPreimage_undoneDelta_eq_iff h hu).mpr hbefore
    rw [payloadHash, htext, payloadHash]

/-- Balances of which one is written with a zero too many. -/
def spelledBalances : Balances :=
  Table.ofList [("alice", ⟨150, 2, by decide, by decide⟩), ("bob", .ofInt64 3),
    ("carol", .ofInt64 2)]

/-- A state with these balances and its root. -/
def spelledState : State :=
  ⟨7, spelledBalances, rootOf spelledBalances, some "t6", some "p6", none⟩

/-- Empties one account for a new one, and names a third that stays as it is. -/
def handover : Delta :=
  let whole : Decimal := ⟨1500, 3, by decide, by decide⟩
  let kept : Decimal := ⟨300, 2, by decide, by decide⟩
  ⟨Table.ofList [("alice", ⟨whole, 0⟩), ("bob", ⟨kept, kept⟩), ("dave", ⟨0, whole⟩)]⟩

theorem undo_inverts_applied_handover : ∃ next u,
    spelledState.applied "t7" "intent" "payload" handover = .ok next ∧ next.undo = some u ∧
      next.reverted u = { spelledState with undo := none } ∧
      next.balances.get? "carol" = spelledState.balances.get? "carol" ∧
      payloadHash "t7" "intent" (next.undoneDelta u) = payloadHash "t7" "intent" handover := by
  have hbefore : ∀ p ∈ handover.changes.entries,
      (spelledState.balances.of p.1).sameValue p.2.before = true := by decide
  obtain ⟨next, hnext⟩ : ∃ next,
      spelledState.applied "t7" "intent" "payload" handover = .ok next := ⟨_, if_neg (by decide)⟩
  obtain ⟨u, hu, hreverted, hother, hdigest⟩ := undo_inverts_applied rfl hnext
  exact ⟨next, u, hnext, hu, hreverted, hother "carol" (by decide),
    hdigest fun p hp => (Decimal.value_eq_of_sameValue (hbefore p hp)).symm⟩

end LedgerGate.State

import LedgerGate.Proofs.Ledger.Conservation

/-!
# The record of a transaction

The state that a transaction leads to holds a record of how to take it back. The delta that is
read off this record is spelled in another way than that of the transaction: its balances are
those of the ledger, not those of the decision. Both have one payload digest, since only normal
forms are digested (`State.undoMatches_applied`).
-/

namespace LedgerGate

/-- The changes of a delta by account, with all balances in their normal forms. -/
def Delta.normalChanges (δ : Delta) : List (String × Decimal × Decimal) :=
  δ.changes.entries.map fun p => (p.1, p.2.before.normalize, p.2.after.normalize)

/-- Only normal forms are digested. -/
theorem payloadPreimage_congr {δ ε : Delta} (tx intentHash : String)
    (h : δ.normalChanges = ε.normalChanges) :
    payloadPreimage tx intentHash δ = payloadPreimage tx intentHash ε := by
  have hjson : ∀ γ : Delta, Json.ofTable (fun c : Change =>
        .object [("before", .string c.before.normalize.text),
          ("after", .string c.after.normalize.text)]) γ.changes =
      .object (γ.normalChanges.map fun p =>
        (p.1, .object [("before", .string p.2.1.text), ("after", .string p.2.2.text)])) := by
    intro γ
    rw [Json.ofTable, Delta.normalChanges, List.map_map]
    rfl
  rw [payloadPreimage, payloadPreimage, hjson δ, hjson ε, h]

/-- The payload digest depends only on normal forms. -/
theorem payloadHash_congr {δ ε : Delta} (tx intentHash : String)
    (h : δ.normalChanges = ε.normalChanges) :
    payloadHash tx intentHash δ = payloadHash tx intentHash ε :=
  congrArg Sha256.textDigest (payloadPreimage_congr tx intentHash h)

namespace State

variable {s next : State} {tx intentHash payload : String} {δ : Delta}

theorem exists_applied (h : s.version < maxVersion) :
    ∃ next, s.applied tx intentHash payload δ = .ok next := ⟨_, if_neg (Nat.not_le.mpr h)⟩

/-- What applying a delta records. -/
theorem undo_applied (h : s.applied tx intentHash payload δ = .ok next) :
    next.undo = some {
      tx := tx
      intentHash := intentHash
      priorVersion := s.version
      priorTx := s.lastTx
      priorPayloadHash := s.lastPayloadHash
      priorBalances := Table.ofList
        (δ.changes.entries.map fun p => (p.1, s.balances.get? p.1)) } := by
  unfold applied at h
  split at h
  · exact absurd h nofun
  · rw [← Except.ok.inj h]

theorem version_applied (h : s.applied tx intentHash payload δ = .ok next) :
    next.version = s.version + 1 ∧ next.lastTx = some tx := by
  unfold applied at h
  split at h
  · exact absurd h nofun
  · rw [← Except.ok.inj h]
    exact ⟨rfl, rfl⟩

/-- The balance of an account that a delta changes is what the delta says, in its normal form. -/
theorem of_applied (h : s.applied tx intentHash payload δ = .ok next) {p : String × Change}
    (hp : p ∈ δ.changes.entries) : next.balances.of p.1 = p.2.after.normalize := by
  have hlookup : Table.lookup p.1 δ.changes.entries = some p.2 :=
    (Table.lookup_eq_some_iff δ.changes.sorted).mpr hp
  rw [Balances.of, balances_applied h, get?_writeChanges (Table.pairwise_ne δ.changes.sorted),
    hlookup]
  rfl

/-- The changes that are read off a record, in order. -/
theorem entries_undoneDelta (h : s.applied tx intentHash payload δ = .ok next) {u : Undo}
    (hu : next.undo = some u) : (next.undoneDelta u).changes.entries =
      δ.changes.entries.map fun p => (p.1, ⟨s.balances.of p.1, next.balances.of p.1⟩) := by
  obtain rfl := Option.some.inj (hu.symm.trans (undo_applied h))
  have hprior := Table.entries_ofList_map δ.changes fun p => s.balances.get? p.1
  rw [undoneDelta]
  dsimp only
  rw [hprior, List.map_map]
  exact Table.entries_ofList_map δ.changes fun p =>
    (⟨s.balances.of p.1, next.balances.of p.1⟩ : Change)

/-- What is read off a record in normal forms: the balances before and those that the delta said. -/
theorem normalChanges_undoneDelta (h : s.applied tx intentHash payload δ = .ok next) {u : Undo}
    (hu : next.undo = some u) : (next.undoneDelta u).normalChanges =
      δ.changes.entries.map fun p =>
        (p.1, (s.balances.of p.1).normalize, p.2.after.normalize) := by
  rw [Delta.normalChanges, entries_undoneDelta h hu, List.map_map]
  refine List.map_congr_left fun p hp => ?_
  rw [Function.comp_apply, of_applied h hp, Decimal.normalize_normalize]

/-- What is read off a record has the normal forms of the delta exactly if the delta was made on
the balances. -/
theorem normalChanges_undoneDelta_eq_iff (h : s.applied tx intentHash payload δ = .ok next)
    {u : Undo} (hu : next.undo = some u) :
    (next.undoneDelta u).normalChanges = δ.normalChanges ↔
      ∀ p ∈ δ.changes.entries, p.2.before.value = (s.balances.of p.1).value := by
  rw [normalChanges_undoneDelta h hu, Delta.normalChanges, List.map_inj_left]
  simp only [Prod.mk.injEq, true_and, and_true, Decimal.normalize_eq_iff]
  exact forall₂_congr fun _ _ => eq_comm

/-- The record of a transaction whose delta was made on the balances matches the payload of the
transaction. -/
theorem undoMatches_applied (h : s.applied tx intentHash payload δ = .ok next)
    (hfresh : ∀ p ∈ δ.changes.entries, (s.balances.of p.1).sameValue p.2.before = true)
    {u : Undo} (hu : next.undo = some u) :
    next.undoMatches u (payloadHash tx intentHash δ) = true := by
  have htx : u.tx = tx ∧ u.intentHash = intentHash := by
    obtain rfl := Option.some.inj (hu.symm.trans (undo_applied h))
    exact ⟨rfl, rfl⟩
  have hchanges : (next.undoneDelta u).normalChanges = δ.normalChanges :=
    (normalChanges_undoneDelta_eq_iff h hu).mpr fun p hp =>
      (Decimal.value_eq_of_sameValue (hfresh p hp)).symm
  rw [undoMatches, decide_eq_true_eq, htx.1, htx.2]
  exact payloadHash_congr tx intentHash hchanges

end State
end LedgerGate

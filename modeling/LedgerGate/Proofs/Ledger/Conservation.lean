import LedgerGate.Ledger.Commit
import LedgerGate.Proofs.Decimal.Value
import LedgerGate.Proofs.Table

/-!
# Conservation of the total

The total of all balances is nowhere computed. That a transaction keeps it follows from its
delta: the sums before and after are equal, and what it takes to be the balances before are
the balances (`Balances.SumTo.writeChanges`). Taking a transaction back restores the balances
themselves (`State.putBack_writeChanges`).
-/

namespace LedgerGate

namespace Balances

/-- The sum of all balances. -/
def total (b : Balances) : ℚ := (b.values.map Decimal.value).sum

/-- Whether no balance is negative and all add up to an amount. -/
structure SumTo (b : Balances) (amount : ℚ) : Prop where
  nonneg : ∀ d ∈ b.values, d.isNegative = false
  total_eq : b.total = amount

end Balances

/-! ## Sums over entries -/

namespace Table

/-- A sum over all entries. -/
def sumOver {β : Type} (f : β → ℚ) (l : List (String × β)) : ℚ := (l.map fun p => f p.2).sum

theorem sumOver_insertEntry {β : Type} (f : β → ℚ) (k : String) (v : β) {l : List (String × β)}
    (h : l.Pairwise (fun p q => p.1 < q.1)) :
    sumOver f (insertEntry k v l) = sumOver f l - ((lookup k l).map f).getD 0 + f v :=
  sum_insertEntry (fun _ => f) k v h

theorem mem_values_insert {β : Type} {t : Table β} {k : String} {v w : β}
    (h : w ∈ (t.insert k v).values) : w = v ∨ w ∈ t.values := by
  obtain ⟨p, hp, rfl⟩ := List.mem_map.mp h
  rcases mem_insertEntry hp with rfl | hp
  · exact .inl rfl
  · exact .inr (List.mem_map_of_mem hp)

end Table

namespace Balances

theorem total_eq_sumOver (b : Balances) : b.total = Table.sumOver Decimal.value b.entries := by
  rw [total, Table.values, List.map_map]
  rfl

theorem value_of (b : Balances) (k : String) :
    (b.of k).value = ((Table.lookup k b.entries).map Decimal.value).getD 0 := by
  rw [of, Table.get?]
  cases Table.lookup k b.entries with
  | none => exact Decimal.value_zero
  | some d => rfl

theorem total_insert (b : Balances) (k : String) (d : Decimal) :
    total (b.insert k d) = b.total - (b.of k).value + d.value := by
  rw [total_eq_sumOver, total_eq_sumOver, value_of]
  exact Table.sumOver_insertEntry Decimal.value k d b.sorted

theorem total_normalize (b : Balances) : total (b.map Decimal.normalize) = b.total := by
  simp [total, Table.values, Table.map, Function.comp_def]

theorem of_insert_of_ne {b : Balances} {k k' : String} (d : Decimal) (h : k ≠ k') :
    of (b.insert k d) k' = b.of k' := by
  rw [of, Table.get?_insert, if_neg h, of]

end Balances

theorem Decimal.isNegative_normalize (d : Decimal) : d.normalize.isNegative = d.isNegative := by
  have h : d.normalize.isNegative = false ↔ d.isNegative = false := by
    rw [← value_nonneg_iff, ← value_nonneg_iff, value_normalize]
  cases hd : d.isNegative <;> simp_all

/-! ## Writing changes and taking them back -/

namespace State

theorem get?_writeChanges {changes : List (String × Change)}
    (h : changes.Pairwise (fun p q => p.1 ≠ q.1)) (b : Balances) (k : String) :
    (writeChanges b changes).get? k =
      ((Table.lookup k changes).map fun c => c.after.normalize).or (b.get? k) := by
  induction changes generalizing b with
  | nil => rfl
  | cons p r ih =>
    obtain ⟨hp, hr⟩ := List.pairwise_cons.mp h
    refine (ih hr _).trans ?_
    rw [Table.get?_insert]
    by_cases hk : p.1 = k
    · have hnone : Table.lookup k r = none :=
        Table.lookup_eq_none_of_ne fun q hq => hk ▸ (hp q hq).symm
      simp [Table.lookup, hk, hnone]
    · simp [Table.lookup, hk]

theorem balances_applied {s next : State} {t intentHash payload : String} {δ : Delta}
    (h : s.applied t intentHash payload δ = .ok next) :
    next.balances = writeChanges s.balances δ.changes.entries := by
  unfold applied at h
  split at h
  · exact absurd h nofun
  · rw [← Except.ok.inj h]

theorem total_writeChanges {changes : List (String × Change)}
    (h : changes.Pairwise (fun p q => p.1 ≠ q.1)) (b : Balances) :
    (writeChanges b changes).total = b.total +
      (changes.map fun p => p.2.after.value - (b.of p.1).value).sum := by
  induction changes generalizing b with
  | nil => simp [writeChanges]
  | cons p r ih =>
    obtain ⟨hp, hr⟩ := List.pairwise_cons.mp h
    have hrest : (r.map fun q => q.2.after.value -
          (Balances.of (b.insert p.1 p.2.after.normalize) q.1).value) =
        r.map fun q => q.2.after.value - (b.of q.1).value :=
      List.map_congr_left fun q hq => by rw [Balances.of_insert_of_ne _ (hp q hq)]
    refine (ih hr _).trans ?_
    rw [hrest, Balances.total_insert, Decimal.value_normalize, List.map_cons, List.sum_cons]
    ring

theorem mem_values_writeChanges {changes : List (String × Change)} {b : Balances} {d : Decimal}
    (h : d ∈ (writeChanges b changes).values) :
    d ∈ b.values ∨ ∃ p ∈ changes, d = p.2.after.normalize := by
  induction changes generalizing b with
  | nil => exact .inl h
  | cons p r ih =>
    rcases ih h with h | ⟨q, hq, rfl⟩
    · rcases Table.mem_values_insert h with rfl | h
      · exact .inr ⟨p, by simp, rfl⟩
      · exact .inl h
    · exact .inr ⟨q, by simp [hq], rfl⟩

theorem get?_putBack {prior : List (String × Option Decimal)}
    (h : prior.Pairwise (fun p q => p.1 ≠ q.1)) (b : Balances) (k : String) :
    (putBack b prior).get? k = (Table.lookup k prior).getD (b.get? k) := by
  induction prior generalizing b with
  | nil => rfl
  | cons p r ih =>
    obtain ⟨hp, hr⟩ := List.pairwise_cons.mp h
    refine (ih hr _).trans ?_
    by_cases hk : p.1 = k
    · have hnone : Table.lookup k r = none :=
        Table.lookup_eq_none_of_ne fun q hq => hk ▸ (hp q hq).symm
      cases hv : p.2 <;> simp [Table.lookup, hk, hnone, hv]
    · cases hv : p.2 <;> simp [Table.lookup, hk, hv]

theorem mem_values_putBack {prior : List (String × Option Decimal)} {b : Balances} {d : Decimal}
    (h : d ∈ (putBack b prior).values) : d ∈ b.values ∨ ∃ p ∈ prior, p.2 = some d := by
  induction prior generalizing b with
  | nil => exact .inl h
  | cons p r ih =>
    obtain ⟨account, prior⟩ := p
    rcases ih h with h | ⟨q, hq, hqd⟩
    · cases prior with
      | none =>
        obtain ⟨q, hq, rfl⟩ := List.mem_map.mp h
        exact .inl (List.mem_map_of_mem (List.mem_filter.mp hq).1)
      | some v =>
        rcases Table.mem_values_insert h with rfl | h
        · exact .inr ⟨(account, some d), List.mem_cons_self, rfl⟩
        · exact .inl h
    · exact .inr ⟨q, List.mem_cons_of_mem _ hq, hqd⟩

/-- The balances before a transaction are put back from the record of it. -/
theorem putBack_writeChanges (b : Balances) (d : Delta) :
    putBack (writeChanges b d.changes.entries)
      (Table.ofList (d.changes.entries.map fun p => (p.1, b.get? p.1))).entries = b := by
  have hne := Table.pairwise_ne d.changes.sorted
  have hprior : (d.changes.entries.map fun p => (p.1, b.get? p.1)).Pairwise
      (fun p q => p.1 ≠ q.1) := List.pairwise_map.mpr hne
  refine Table.ext_get? fun k => ?_
  rw [get?_putBack (Table.pairwise_ne (Table.sorted _)), get?_writeChanges hne]
  change ((Table.ofList _).get? k).getD _ = _
  rw [Table.get?_ofList hprior]
  have hlook : ∀ l : List (String × Change), Table.lookup k (l.map fun p => (p.1, b.get? p.1)) =
      (Table.lookup k l).map fun _ => b.get? k := by
    intro l
    induction l with
    | nil => rfl
    | cons p r ih =>
      simp only [List.map_cons, Table.lookup, ih]
      split
      · next hk => rw [hk]; rfl
      · rfl
  rw [hlook]
  cases Table.lookup k d.changes.entries <;> rfl

end State

/-! ## Deltas that conserve -/

namespace Delta

/-- A delta conserves exactly if no account ends below zero, and the totals before and after can be
summed and are equal. -/
theorem conserves_eq_ok_iff {d : Delta} : d.conserves = .ok () ↔
    (∀ p ∈ d.changes.entries, 0 ≤ p.2.after.value) ∧
      ∃ i o, d.inputs = .ok i ∧ d.outputs = .ok o ∧ i.value = o.value := by
  have hnone : d.overdraft? = none ↔ ∀ p ∈ d.changes.entries, 0 ≤ p.2.after.value := by
    simp [overdraft?, List.find?_eq_none, Decimal.value_nonneg_iff]
  rw [← hnone, conserves]
  cases d.overdraft? with
  | some p => simp
  | none =>
    cases hi : d.inputs with
    | error f => simp [orViolation]
    | ok i =>
      cases ho : d.outputs with
      | error f => simp [orViolation]
      | ok o =>
        by_cases hsame : i.sameValue o = true
        · simp [orViolation, hsame, Decimal.value_eq_of_sameValue hsame]
        · have hvalue : i.value ≠ o.value := fun h => hsame (Decimal.sameValue_iff.mpr h)
          simp [orViolation, hsame, hvalue]

/-- What it means that a delta conserves: no account ends below zero, and the sum of all
accounts that it names is the same before and after. -/
theorem conserves_ok {d : Delta} (h : d.conserves = .ok ()) :
    (∀ p ∈ d.changes.entries, p.2.after.isNegative = false) ∧
      (d.changes.entries.map fun p => p.2.before.value).sum =
        (d.changes.entries.map fun p => p.2.after.value).sum := by
  obtain ⟨hnonneg, i, o, hin, hout, hvalue⟩ := conserves_eq_ok_iff.mp h
  refine ⟨fun p hp => Decimal.value_nonneg_iff.mp (hnonneg p hp), ?_⟩
  rw [Decimal.value_sum hin, Decimal.value_sum hout] at hvalue
  simpa [Table.values, List.map_map, Function.comp_def] using hvalue

end Delta

/-- A delta that conserves and that was made on the balances keeps their total. -/
theorem Balances.SumTo.writeChanges {b : Balances} {amount : ℚ} {d : Delta} (hb : b.SumTo amount)
    (hd : d.conserves = .ok ())
    (hfresh : ∀ p ∈ d.changes.entries, (b.of p.1).sameValue p.2.before = true) :
    (State.writeChanges b d.changes.entries).SumTo amount := by
  obtain ⟨hnonneg, hsum⟩ := Delta.conserves_ok hd
  refine ⟨fun v hv => ?_, ?_⟩
  · rcases State.mem_values_writeChanges hv with hv | ⟨p, hp, rfl⟩
    · exact hb.nonneg v hv
    · rw [Decimal.isNegative_normalize]
      exact hnonneg p hp
  · have hdiff : (d.changes.entries.map fun p => p.2.after.value - (b.of p.1).value) =
        d.changes.entries.map fun p => p.2.after.value - p.2.before.value :=
      List.map_congr_left fun p hp => by rw [Decimal.value_eq_of_sameValue (hfresh p hp)]
    have hzero : (d.changes.entries.map fun p => p.2.after.value - p.2.before.value).sum +
        (d.changes.entries.map fun p => p.2.before.value).sum =
          (d.changes.entries.map fun p => p.2.after.value).sum := by
      simp [← List.sum_map_add]
    rw [State.total_writeChanges (Table.pairwise_ne d.changes.sorted), hdiff, hb.total_eq]
    linarith

end LedgerGate

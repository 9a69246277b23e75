import LedgerGate.Table
import Mathlib.Algebra.BigOperators.Group.List.Basic
import Mathlib.Tactic.Abel
import Mathlib.Tactic.Common

/-!
# Tables by their look-ups

A table is determined by what is found under each name (`ext_get?`), and the table made of
the entries of a table is that table again (`ofList_entries`).
-/

namespace LedgerGate.Table

variable {β γ : Type}

theorem get?_insert_self (t : Table β) (k : String) (v : β) : (t.insert k v).get? k = some v := by
  rw [get?_insert, if_pos rfl]

theorem lookup_eq_some_iff {l : List (String × β)} (h : l.Pairwise (fun p q => p.1 < q.1))
    {k : String} {v : β} : lookup k l = some v ↔ (k, v) ∈ l := by
  induction l with
  | nil => simp [lookup]
  | cons p r ih =>
    obtain ⟨hp, hr⟩ := List.pairwise_cons.mp h
    obtain ⟨k', v'⟩ := p
    by_cases hk : k' = k
    · subst hk
      have hnot : ∀ w, (k', w) ∉ r := fun w hw => String.lt_irrefl _ (hp (k', w) hw)
      simp [lookup, hnot, eq_comm]
    · have hne : ¬ (k = k') := fun e => hk e.symm
      simp [lookup, hk, hne, ih hr]

theorem get?_eq_some_iff {t : Table β} {k : String} {v : β} :
    t.get? k = some v ↔ (k, v) ∈ t.entries := lookup_eq_some_iff t.sorted

theorem lookup_eq_none_iff {l : List (String × β)} {k : String} :
    lookup k l = none ↔ k ∉ l.map Prod.fst := by
  induction l with
  | nil => simp [lookup]
  | cons p r ih =>
    by_cases hk : p.1 = k
    · simp [lookup, hk]
    · have hne : ¬ (k = p.1) := fun e => hk e.symm
      simp [lookup, hk, hne, ih]

/-- A sum over sorted entries when one is put in: what was found under its name goes. -/
theorem sum_insertEntry {M : Type} [AddCommGroup M] (f : String → β → M) (k : String) (v : β)
    {l : List (String × β)} (h : l.Pairwise (fun p q => p.1 < q.1)) :
    ((insertEntry k v l).map fun p => f p.1 p.2).sum =
      (l.map fun p => f p.1 p.2).sum - ((lookup k l).map (f k)).getD 0 + f k v := by
  induction l with
  | nil => simp [insertEntry, lookup]
  | cons p r ih =>
    obtain ⟨hp, hr⟩ := List.pairwise_cons.mp h
    obtain ⟨k', v'⟩ := p
    unfold insertEntry
    split
    · next hlt =>
      simp only [lookup_cons_eq_none_of_lt hp hlt, List.map_cons, List.sum_cons, Option.map_none,
        Option.getD_none]
      abel
    · split
      · next hk =>
        subst hk
        simp only [lookup, if_true, List.map_cons, List.sum_cons, Option.map_some,
          Option.getD_some]
        abel
      · next hk =>
        simp only [lookup, if_neg hk, List.map_cons, List.sum_cons, ih hr]
        abel

/-- Sorted lists of entries in which the same is found are equal. -/
theorem eq_of_lookup_eq : ∀ {l m : List (String × β)},
    l.Pairwise (fun p q => p.1 < q.1) → m.Pairwise (fun p q => p.1 < q.1) →
    (∀ k, lookup k l = lookup k m) → l = m
  | [], [], _, _, _ => rfl
  | [], p :: m, _, _, h => by simpa [lookup] using h p.1
  | p :: l, [], _, _, h => by simpa [lookup] using h p.1
  | p :: l, q :: m, hl, hm, h => by
    obtain ⟨hp, hl'⟩ := List.pairwise_cons.mp hl
    obtain ⟨hq, hm'⟩ := List.pairwise_cons.mp hm
    -- Each first name is found in the other list, so neither can be the smaller one.
    have hk : p.1 = q.1 := by
      by_contra hne
      have hpm : (p.1, p.2) ∈ m := by
        have := (lookup_eq_some_iff hm (v := p.2)).mp ((h p.1).symm.trans (by simp [lookup]))
        simpa [Prod.ext_iff, hne] using this
      have hql : (q.1, q.2) ∈ l := by
        have := (lookup_eq_some_iff hl (v := q.2)).mp ((h q.1).trans (by simp [lookup]))
        simpa [Prod.ext_iff, Ne.symm hne] using this
      exact String.lt_irrefl _ (String.lt_trans (hp _ hql) (hq _ hpm))
    have hv : p.2 = q.2 := by
      have := h p.1
      rwa [lookup, lookup, if_pos rfl, if_pos hk.symm, Option.some.injEq] at this
    have htail : l = m := by
      refine eq_of_lookup_eq hl' hm' fun k => ?_
      by_cases hkp : p.1 = k
      · subst hkp
        rw [lookup_eq_none_of_lt hp, lookup_eq_none_of_lt fun r hr => hk ▸ hq r hr]
      · have := h k
        rwa [lookup, lookup, if_neg hkp, if_neg (fun e => hkp (hk.trans e))] at this
    rw [htail, Prod.ext hk hv]

/-- A table is determined by its look-ups. -/
theorem ext_get? {s t : Table β} (h : ∀ k, s.get? k = t.get? k) : s = t :=
  ext (eq_of_lookup_eq s.sorted t.sorted h)

theorem map_insert (f : β → γ) (t : Table β) (k : String) (v : β) :
    (t.insert k v).map f = (t.map f).insert k (f v) :=
  ext_get? fun k' => by
    rw [get?_map, get?_insert, get?_insert, get?_map]
    split <;> rfl

theorem map_erase (f : β → γ) (t : Table β) (k : String) :
    (t.erase k).map f = (t.map f).erase k :=
  ext_get? fun k' => by
    rw [get?_map, get?_erase, get?_erase, get?_map]
    split <;> rfl

theorem get?_foldl_insert (l : List (String × β)) (t : Table β)
    (hl : l.Pairwise (fun p q => p.1 ≠ q.1)) (k : String) :
    (l.foldl (fun t p => t.insert p.1 p.2) t).get? k = (lookup k l).or (t.get? k) := by
  induction l generalizing t with
  | nil => simp [lookup]
  | cons p r ih =>
    obtain ⟨hp, hr⟩ := List.pairwise_cons.mp hl
    rw [List.foldl_cons, ih _ hr, get?_insert]
    by_cases hk : p.1 = k
    · have hnone : lookup k r = none :=
        lookup_eq_none_of_ne fun q hq => hk ▸ (hp q hq).symm
      simp [lookup, hk, hnone]
    · simp [lookup, hk]

theorem pairwise_ne {l : List (String × β)} (h : l.Pairwise (fun p q => p.1 < q.1)) :
    l.Pairwise (fun p q => p.1 ≠ q.1) :=
  h.imp fun hlt => String.ne_of_lt hlt

theorem get?_ofList {l : List (String × β)} (hl : l.Pairwise (fun p q => p.1 ≠ q.1))
    (k : String) : (ofList l).get? k = lookup k l := by
  rw [ofList, get?_foldl_insert l empty hl, get?_empty, Option.or_none]

/-- The entries of a table make that table. -/
theorem ofList_entries (t : Table β) : ofList t.entries = t :=
  ext_get? fun k => get?_ofList (pairwise_ne t.sorted) k

/-- New values under the names of a table make a table with these entries. -/
theorem entries_ofList_map {γ : Type} (t : Table β) (f : String × β → γ) :
    (ofList (t.entries.map fun p => (p.1, f p))).entries = t.entries.map fun p => (p.1, f p) :=
  congrArg entries (ofList_entries ⟨t.entries.map fun p => (p.1, f p),
    List.pairwise_map.mpr t.sorted⟩)

theorem nodup_keys (t : Table β) : t.keys.Nodup := List.pairwise_map.mpr (pairwise_ne t.sorted)

theorem mem_keys_iff {t : Table β} {k : String} : k ∈ t.keys ↔ t.contains k = true := by
  rw [keys, contains, ← not_iff_not, ← lookup_eq_none_iff]
  simp [get?]

theorem contains_foldl_insert_iff {l : List (String × β)} {t : Table β} {k : String} :
    (l.foldl (fun t p => t.insert p.1 p.2) t).contains k = true ↔
      t.contains k = true ∨ k ∈ l.map Prod.fst := by
  induction l generalizing t with
  | nil => simp
  | cons p r ih =>
    rw [List.foldl_cons, ih, List.map_cons, List.mem_cons, contains, contains, get?_insert]
    split
    · next h => simp [h]
    · next h => simp [Ne.symm h]

theorem mem_keys_ofList_iff {l : List (String × β)} {k : String} :
    k ∈ (ofList l).keys ↔ k ∈ l.map Prod.fst := by
  rw [mem_keys_iff, ofList, contains_foldl_insert_iff]
  simp [contains]

theorem mem_of_mem_foldl_insert {l : List (String × β)} {t : Table β}
    {p : String × β} (h : p ∈ (l.foldl (fun t p => t.insert p.1 p.2) t).entries) :
    p ∈ t.entries ∨ p ∈ l := by
  induction l generalizing t with
  | nil => exact .inl h
  | cons q r ih =>
    rcases ih h with h | h
    · rcases mem_insertEntry h with rfl | h
      · exact .inr List.mem_cons_self
      · exact .inl h
    · exact .inr (List.mem_cons_of_mem q h)

/-- A table that was made from a list has no other entries. -/
theorem mem_of_mem_ofList {l : List (String × β)} {p : String × β}
    (h : p ∈ (ofList l).entries) : p ∈ l :=
  (mem_of_mem_foldl_insert h).resolve_left List.not_mem_nil

end LedgerGate.Table

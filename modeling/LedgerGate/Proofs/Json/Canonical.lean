import LedgerGate.Proofs.Json.PrefixFree
import LedgerGate.Proofs.Table
import Mathlib.Data.List.Basic

/-!
# Canonical texts

The canonical text of a value is what is written for its sorted form. The sorted form of an exact
value is exact, so exact values with one canonical text have one sorted form
(`IsExact.sorted_eq_of_canonical_eq`). Objects with one sorted form have the same under each name,
if they have no name twice (`sorted_under_eq`), and lists and tables are told by their sorted forms
if their entries are.
-/

namespace LedgerGate.Json

/-! ## Sorted forms -/

theorem sortedItems_eq_map (items : List Json) : sortedItems items = items.map sorted := by
  induction items with
  | nil => rfl
  | cons v r ih => rw [sortedItems, ih, List.map_cons]

theorem sortedFields_eq_map (fields : List (String × Json)) :
    sortedFields fields = fields.map fun p => (p.1, p.2.sorted) := by
  induction fields with
  | nil => rfl
  | cons p r ih => rw [sortedFields, ih, List.map_cons]

/-- The object of a table is in its order already. -/
theorem sorted_ofTable {β : Type} (f : β → Json) (t : Table β) :
    (ofTable f t).sorted = ofTable (fun b => (f b).sorted) t := by
  have hentries := Table.entries_ofList_map t fun p => (f p.2).sorted
  rw [ofTable, sorted, sortedFields_eq_map, List.map_map]
  exact congrArg object hentries

/-- Sorting finds what is under each name. -/
theorem sorted_under_eq {fields fields' : List (String × Json)}
    (hn : fields.Pairwise (fun p q => p.1 ≠ q.1)) (hn' : fields'.Pairwise (fun p q => p.1 ≠ q.1))
    (h : (object fields).sorted = (object fields').sorted) (name : String) :
    (Table.lookup name fields).map sorted = (Table.lookup name fields').map sorted := by
  have hfind : ∀ {l : List (String × Json)}, l.Pairwise (fun p q => p.1 ≠ q.1) →
      (Table.ofList (sortedFields l)).get? name = (Table.lookup name l).map sorted := by
    intro l hl
    have hl : (l.map fun p => (p.1, p.2.sorted)).Pairwise (fun p q => p.1 ≠ q.1) :=
      List.pairwise_map.mpr hl
    rw [sortedFields_eq_map, Table.get?_ofList hl, Table.lookup_map]
  rw [sorted, sorted] at h
  have htable := Table.ext (Json.object.inj h)
  rw [← hfind hn, ← hfind hn', htable]

/-! ## Exact values by their canonical texts -/

mutual

theorem IsExact.sorted : ∀ {v : Json}, IsExact v → IsExact v.sorted
  | .array items, h => ItemsExact.sorted (v := items) h
  | .object fields, h => by
    have hfields : FieldsExact (sortedFields fields) := FieldsExact.sorted h
    show FieldsExact (Table.ofList (sortedFields fields)).entries
    exact fieldsExact_iff.mpr fun p hp =>
      fieldsExact_iff.mp hfields p (Table.mem_of_mem_ofList hp)
  | .null, _ | .bool _, _ | .string _, _ | .integer _, _ => trivial
  | .float _, h | .broken, h => h.elim

theorem ItemsExact.sorted : ∀ {v : List Json}, ItemsExact v → ItemsExact (sortedItems v)
  | [], _ => trivial
  | _ :: _, h => ⟨IsExact.sorted h.1, ItemsExact.sorted h.2⟩

theorem FieldsExact.sorted : ∀ {v : List (String × Json)}, FieldsExact v →
    FieldsExact (sortedFields v)
  | [], _ => trivial
  | (_, _) :: _, h => ⟨IsExact.sorted h.1, FieldsExact.sorted h.2⟩

end

/-- Exact values with one canonical text are equal up to the order of their fields. -/
theorem IsExact.sorted_eq_of_canonical_eq {v w : Json} (hv : IsExact v) (hw : IsExact w)
    (h : v.canonical = w.canonical) : v.sorted = w.sorted :=
  hv.sorted.eq_of_chars_eq hw.sorted (String.ofList_injective h)

/-! ## Lists and tables -/

section

variable {α : Type} {f : α → Json}

theorem sorted_ofList_injective (hf : ∀ {a b : α}, (f a).sorted = (f b).sorted → a = b)
    {l m : List α} (h : (ofList f l).sorted = (ofList f m).sorted) : l = m := by
  rw [ofList, ofList, sorted, sorted, sortedItems_eq_map, sortedItems_eq_map, List.map_map,
    List.map_map] at h
  exact List.map_injective_iff.mpr (fun a b hab => hf hab) (array.inj h)

theorem sorted_ofTable_injective (hf : ∀ {a b : α}, (f a).sorted = (f b).sorted → a = b)
    {s t : Table α} (h : (ofTable f s).sorted = (ofTable f t).sorted) : s = t := by
  have hfield : Function.Injective fun p : String × α => (p.1, (f p.2).sorted) := by
    rintro ⟨k, a⟩ ⟨k', b⟩ hab
    obtain ⟨hname, hvalue⟩ := Prod.mk.inj hab
    exact Prod.ext hname (hf hvalue)
  rw [sorted_ofTable, sorted_ofTable] at h
  exact Table.ext (List.map_injective_iff.mpr hfield (object.inj h))

theorem isExact_ofTable (hf : ∀ a, (f a).IsExact) (t : Table α) : (ofTable f t).IsExact := by
  refine fieldsExact_iff.mpr fun p hp => ?_
  obtain ⟨q, -, rfl⟩ := List.mem_map.mp hp
  exact hf q.2

end

end LedgerGate.Json

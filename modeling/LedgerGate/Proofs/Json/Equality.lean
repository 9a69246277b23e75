import LedgerGate.Proofs.Json.Canonical

/-!
# Equal values have one canonical text

Two values are the same when they are built alike and objects agree under each name, in
whatever order their fields stand. For exact values that is what it takes to have one canonical
text (`canonical_eq_iff_same`).
-/

namespace LedgerGate.Json

/-- Equality of values, with objects as maps: of equal names the last counts. -/
inductive Same : Json → Json → Prop
  | null : Same null null
  | bool (b : Bool) : Same (bool b) (bool b)
  | integer (n : Int) : Same (integer n) (integer n)
  | string (s : String) : Same (string s) (string s)
  | array {items items' : List Json} (h : List.Forall₂ Same items items') :
    Same (array items) (array items')
  | object {fields fields' : List (String × Json)}
    (h : ∀ name, Option.Rel Same ((object fields).get? name) ((object fields').get? name)) :
    Same (object fields) (object fields')

/-! ## Sorted objects by their look-ups -/

theorem allNamed_cons (name k : String) (v : Json) (r : List (String × Json)) :
    allNamed name ((k, v) :: r) = if k = name then v :: allNamed name r else allNamed name r := by
  by_cases hk : k = name <;> simp [allNamed, hk]

/-- The table of an object's fields has the last value under each name. -/
theorem get?_table (fields : List (String × Json)) (name : String) :
    (Table.ofList fields).get? name = (object fields).get? name := by
  have hfold : ∀ t : Table Json, (fields.foldl (fun t p => t.insert p.1 p.2) t).get? name =
      (allNamed name fields).getLast?.or (t.get? name) := by
    induction fields with
    | nil => intro t; rfl
    | cons p r ih =>
      intro t
      obtain ⟨k, v⟩ := p
      rw [List.foldl_cons, ih, Table.get?_insert, allNamed_cons]
      by_cases hk : k = name
      · rw [if_pos hk, if_pos hk, List.getLast?_cons]
        cases (allNamed name r).getLast? <;> rfl
      · rw [if_neg hk, if_neg hk]
  have hempty : (Table.empty : Table Json).get? name = none := rfl
  rw [Table.ofList, hfold, hempty, Option.or_none]
  rfl

theorem get?_sortedFields (fields : List (String × Json)) (name : String) :
    (object (sortedFields fields)).get? name = ((object fields).get? name).map sorted := by
  have hnamed : allNamed name (sortedFields fields) = (allNamed name fields).map sorted := by
    induction fields with
    | nil => rfl
    | cons p r ih =>
      obtain ⟨k, v⟩ := p
      rw [sortedFields, allNamed_cons, allNamed_cons, ih]
      by_cases hk : k = name
      · rw [if_pos hk, if_pos hk, List.map_cons]
      · rw [if_neg hk, if_neg hk]
  rw [get?, get?, hnamed, List.getLast?_map]

theorem sorted_object_eq_iff {fields fields' : List (String × Json)} :
    (object fields).sorted = (object fields').sorted ↔
      ∀ name, ((object fields).get? name).map sorted = ((object fields').get? name).map sorted := by
  have hfind : ∀ (l : List (String × Json)) (name : String),
      (Table.ofList (sortedFields l)).get? name = ((object l).get? name).map sorted := by
    intro l name
    rw [get?_table, get?_sortedFields]
  constructor
  · intro h name
    have htable := Table.ext (Json.object.inj h)
    rw [← hfind, ← hfind, htable]
  · intro h
    have htable : Table.ofList (sortedFields fields) = Table.ofList (sortedFields fields') := by
      apply Table.ext_get?
      intro name
      rw [hfind, hfind, h]
    rw [sorted, sorted, htable]

theorem exists_field_of_get? {fields : List (String × Json)} {name : String} {v : Json}
    (h : (object fields).get? name = some v) : ∃ p ∈ fields, p.2 = v := by
  obtain ⟨p, hp, hv⟩ := List.mem_filterMap.mp (List.mem_of_getLast? h)
  by_cases hk : p.1 = name
  · rw [if_pos hk] at hv
    exact ⟨p, hp, Option.some.inj hv⟩
  · rw [if_neg hk] at hv
    cases hv

/-! ## Equality and sorted forms -/

/-- Optional values have one sorted form if and only if they are the same. -/
theorem map_sorted_eq_iff {a b : Option Json}
    (h : ∀ v, a = some v → ∀ w, b = some w → (v.sorted = w.sorted ↔ Same v w)) :
    a.map sorted = b.map sorted ↔ Option.Rel Same a b := by
  cases a with
  | none =>
    cases b with
    | none => exact ⟨fun _ => .none, fun _ => rfl⟩
    | some w => exact ⟨nofun, nofun⟩
  | some v =>
    cases b with
    | none => exact ⟨nofun, nofun⟩
    | some w =>
      have hvw := h v rfl w rfl
      constructor
      · intro heq
        exact .some (hvw.mp (Option.some.inj heq))
      · intro hrel
        cases hrel with
        | some hsame => exact congrArg some (hvw.mpr hsame)

mutual

/-- Exact values have one sorted form if and only if they are the same. -/
theorem sorted_eq_iff : ∀ v w : Json, IsExact v → IsExact w → (v.sorted = w.sorted ↔ Same v w)
  | null, w, _, _ => by
    constructor
    · intro h
      cases w with
      | null => exact .null
      | _ => cases h
    · intro h
      cases h
      rfl
  | bool b, w, _, _ => by
    constructor
    · intro h
      cases w with
      | bool b' => cases h; exact .bool b
      | _ => cases h
    · intro h
      cases h
      rfl
  | integer n, w, _, _ => by
    constructor
    · intro h
      cases w with
      | integer n' => cases h; exact .integer n
      | _ => cases h
    · intro h
      cases h
      rfl
  | string s, w, _, _ => by
    constructor
    · intro h
      cases w with
      | string s' => cases h; exact .string s
      | _ => cases h
    · intro h
      cases h
      rfl
  | array items, w, hv, hw => by
    constructor
    · intro h
      cases w with
      | array items' => exact .array ((sortedItems_eq_iff items items' hv hw).mp (array.inj h))
      | _ => cases h
    · intro h
      cases h with
      | array hitems => exact congrArg array ((sortedItems_eq_iff items _ hv hw).mpr hitems)
  | object fields, w, hv, hw => by
    have hfields : ∀ fields', FieldsExact fields' → ∀ name,
        (((object fields).get? name).map sorted = ((object fields').get? name).map sorted ↔
          Option.Rel Same ((object fields).get? name) ((object fields').get? name)) := by
      intro fields' hw name
      apply map_sorted_eq_iff
      intro v hfind v' hfind'
      obtain ⟨p, hp, rfl⟩ := exists_field_of_get? hfind
      obtain ⟨q, hq, rfl⟩ := exists_field_of_get? hfind'
      exact sorted_field_eq_iff fields hv p hp q.2 (fieldsExact_iff.mp hw q hq)
    constructor
    · intro h
      cases w with
      | object fields' =>
        exact .object fun name => (hfields fields' hw name).mp (sorted_object_eq_iff.mp h name)
      | _ => cases h
    · intro h
      cases h with
      | object hsame =>
        exact sorted_object_eq_iff.mpr fun name => (hfields _ hw name).mpr (hsame name)

theorem sortedItems_eq_iff : ∀ items items' : List Json, ItemsExact items → ItemsExact items' →
    (sortedItems items = sortedItems items' ↔ List.Forall₂ Same items items')
  | [], [], _, _ => ⟨fun _ => .nil, fun _ => rfl⟩
  | [], _ :: _, _, _ => ⟨nofun, nofun⟩
  | _ :: _, [], _, _ => ⟨nofun, nofun⟩
  | v :: r, w :: r', hv, hw => by
    rw [sortedItems, sortedItems, List.cons.injEq, List.forall₂_cons,
      sorted_eq_iff v w hv.1 hw.1, sortedItems_eq_iff r r' hv.2 hw.2]

theorem sorted_field_eq_iff : ∀ fields : List (String × Json), FieldsExact fields →
    ∀ p ∈ fields, ∀ w, IsExact w → (p.2.sorted = w.sorted ↔ Same p.2 w)
  | [], _ => nofun
  | (k, v) :: r, h => fun p hp w hw => by
    have hfirst := sorted_eq_iff v w h.1 hw
    rcases List.mem_cons.mp hp with rfl | hp
    · exact hfirst
    · exact sorted_field_eq_iff r h.2 p hp w hw

end

/-! ## Canonical texts -/

/-- Exact values have one canonical text if and only if they are the same. -/
theorem canonical_eq_iff_same {v w : Json} (hv : IsExact v) (hw : IsExact w) :
    v.canonical = w.canonical ↔ Same v w := by
  rw [← sorted_eq_iff v w hv hw]
  constructor
  · intro h
    exact hv.sorted_eq_of_canonical_eq hw h
  · intro h
    rw [canonical, canonical, h]

end LedgerGate.Json

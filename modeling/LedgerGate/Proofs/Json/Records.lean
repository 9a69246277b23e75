import LedgerGate.Proofs.Json.RoundTrip
import LedgerGate.Proofs.Table

/-!
# Reading records and tables

What the readers of records, lists and tables make of the data forms that are written for them.
-/

namespace LedgerGate.Json

/-! ## Lists -/

theorem traverse_eq_some {α β γ : Type} {f : α → Option β} {g : γ → α} {h : γ → β} {l : List γ}
    (hf : ∀ x ∈ l, f (g x) = some (h x)) : traverse f (l.map g) = some (l.map h) := by
  induction l with
  | nil => rfl
  | cons x r ih =>
    simp [traverse, hf x (by simp), ih fun y hy => hf y (by simp [hy])]

theorem traverse_eq_none {α β : Type} {f : α → Option β} {l : List α} {x : α} (hx : x ∈ l)
    (hf : f x = none) : traverse f l = none := by
  induction l with
  | nil => simp at hx
  | cons y r ih =>
    rcases List.mem_cons.mp hx with rfl | hx
    · simp [traverse, hf]
    · simp [traverse, ih hx]

/-- Where some items are read and others are not, a list is read if all its items are. -/
theorem traverse_ite {α β : Type} {f : β → Option α} {g : α → β} {P : α → Prop}
    [DecidablePred P] {l : List α} (h : ∀ x ∈ l, f (g x) = if P x then some x else none) :
    traverse f (l.map g) = if ∀ x ∈ l, P x then some l else none := by
  split
  · next hall =>
    have hread := traverse_eq_some (h := id) fun x hx => (h x hx).trans (if_pos (hall x hx))
    rwa [List.map_id] at hread
  · next hnot =>
    obtain ⟨x, hx, hPx⟩ : ∃ x ∈ l, ¬ P x := by simpa using hnot
    exact traverse_eq_none (List.mem_map_of_mem hx) ((h x hx).trans (if_neg hPx))

theorem list?_within {α : Type} (f : Json → Option α) (g : α → Json) (l : List α) (n : Nat) :
    list? f ((ofList g l).within (n + 1)) = traverse f (l.map fun x => (g x).within n) := by
  rw [ofList, within, list?, itemsWithin_eq_map, List.map_map]
  rfl

/-! ## Parts of records -/

theorem allNamed_eq_nil {name : String} {fields : List (String × Json)}
    (h : name ∉ fields.map Prod.fst) : allNamed name fields = [] := by
  refine List.filterMap_eq_nil_iff.mpr fun p hp => if_neg ?_
  rintro rfl
  exact h (List.mem_map_of_mem hp)

theorem allNamed_of_mem {fields : List (String × Json)} (hn : (fields.map Prod.fst).Nodup)
    {p : String × Json} (hp : p ∈ fields) : allNamed p.1 fields = [p.2] := by
  induction fields with
  | nil => simp at hp
  | cons q r ih =>
    obtain ⟨hq, hr⟩ := List.nodup_cons.mp hn
    rcases List.mem_cons.mp hp with rfl | hp
    · have hrest : allNamed p.1 r = [] := allNamed_eq_nil hq
      simpa [allNamed] using hrest
    · have hne : q.1 ≠ p.1 := fun e => hq (e ▸ List.mem_map_of_mem hp)
      simpa [allNamed, hne] using ih hr hp

/-- A record that has all its fields gives the parts in their order. -/
theorem parts?_object {names : List String} {fields : List (String × Json)} (hn : names.Nodup)
    (h : fields.map Prod.fst = names) :
    parts? names (object fields) = some (fields.map fun p => some p.2) := by
  subst h
  exact traverse_eq_some fun p hp => by rw [allNamed_of_mem hn hp]

theorem nat?_integer {n most : Nat} (h : n ≤ most) : (integer n).nat? most = some n := by
  rw [nat?, if_pos ⟨by omega, Int.ofNat_le.mpr h⟩, Int.toNat_natCast]

/-! ## Tables -/

theorem table?_ofTable {α : Type} {f : Json → Option α} {g : α → Json} {t : Table α}
    (h : ∀ v ∈ t.values, f (g v) = some v) : table? f (ofTable g t) = some t := by
  have hread : traverse (fun p : String × Json => (f p.2).map fun v => (p.1, v))
      (t.entries.map fun p => (p.1, g p.2)) = some (t.entries.map id) :=
    traverse_eq_some fun p hp => by rw [h _ (List.mem_map_of_mem hp)]; rfl
  rw [ofTable, table?, hread, List.map_id, Option.map_some, Table.ofList_entries]

theorem table?_ofTable_none {α : Type} {f : Json → Option α} {g : α → Json} {t : Table α} {v : α}
    (hv : v ∈ t.values) (h : f (g v) = none) : table? f (ofTable g t) = none := by
  obtain ⟨p, hp, rfl⟩ := List.mem_map.mp hv
  rw [ofTable, table?, traverse_eq_none (List.mem_map_of_mem hp) (by simp [h]), Option.map_none]

/-! ## Values that may be null -/

theorem option?_ofOption {α : Type} {f : Json → Option α} {g : α → Json} (hg : ∀ a, g a ≠ null)
    (o : Option α) : option? f (ofOption g o) = o.elim (some none) fun a => (f (g a)).map some := by
  cases o with
  | none => rfl
  | some a =>
    show option? f (g a) = (f (g a)).map some
    generalize hga : g a = v
    cases v <;> first | rfl | exact absurd hga (hg a)

theorem ofOption_cases {α : Type} {P : Json → Prop} {g : α → Json} (hnull : P null)
    (hg : ∀ a, P (g a)) (o : Option α) : P (ofOption g o) := by
  cases o with
  | none => exact hnull
  | some a => exact hg a

/-! ## The shape of what is written -/

theorem itemsPlain_map {α : Type} {f : α → Json} {l : List α} (h : ∀ x ∈ l, IsPlain (f x)) :
    ItemsPlain (l.map f) := by
  induction l with
  | nil => trivial
  | cons x r ih => exact ⟨h x (by simp), ih fun y hy => h y (by simp [hy])⟩

theorem fieldsPlain_map {β : Type} {f : β → Json} {l : List (String × β)}
    (h : ∀ p ∈ l, IsPlain (f p.2)) : FieldsPlain (l.map fun p => (p.1, f p.2)) := by
  induction l with
  | nil => trivial
  | cons p r ih => exact ⟨h p (by simp), ih fun q hq => h q (by simp [hq])⟩

theorem fieldsDepth_map_le {β : Type} {f : β → Json} {n : Nat} {l : List (String × β)}
    (h : ∀ p ∈ l, depth (f p.2) ≤ n) : fieldsDepth (l.map fun p => (p.1, f p.2)) ≤ n := by
  induction l with
  | nil => exact Nat.zero_le n
  | cons p r ih =>
    exact Nat.max_le.mpr ⟨h p (by simp), ih fun q hq => h q (by simp [hq])⟩

theorem itemsDepth_map_le_iff {α : Type} {f : α → Json} {n : Nat} {l : List α} :
    itemsDepth (l.map f) ≤ n ↔ ∀ x ∈ l, depth (f x) ≤ n := by
  induction l with
  | nil => simp [itemsDepth]
  | cons x r ih => rw [List.map_cons, itemsDepth, Nat.max_le, ih, List.forall_mem_cons]

end LedgerGate.Json

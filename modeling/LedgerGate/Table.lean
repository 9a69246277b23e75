/-!
# Tables

A `Table` is a finite map from names to values, kept as a list in strictly
increasing order of name. The order is part of the type: two tables with the
same entries are equal, and whatever is printed, hashed or summed from a table
comes out in the order of its names. Names are ordered by code point, which is
also the order of their UTF-8 bytes.
-/

namespace LedgerGate

universe u v

/-- A finite map from names to values, sorted by name. -/
structure Table (β : Type u) where
  entries : List (String × β)
  sorted : entries.Pairwise (fun p q => p.1 < q.1)

namespace Table

variable {β : Type u} {γ : Type v}

@[ext]
theorem ext {s t : Table β} (h : s.entries = t.entries) : s = t := by
  cases s; cases t; cases h; rfl

instance [DecidableEq β] : DecidableEq (Table β) := fun s t =>
  if h : s.entries = t.entries then isTrue (ext h) else isFalse (fun e => h (e ▸ rfl))

instance [Repr β] : Repr (Table β) := ⟨fun t n => reprPrec t.entries n⟩

/-! ## Sorted lists of entries -/

/-- The value under a name, in a list of entries. -/
def lookup (k : String) : List (String × β) → Option β
  | [] => none
  | (k', v) :: r => if k' = k then some v else lookup k r

/-- A list of entries with one more, replacing the value of an equal name. -/
def insertEntry (k : String) (v : β) : List (String × β) → List (String × β)
  | [] => [(k, v)]
  | (k', v') :: r =>
    if k < k' then (k, v) :: (k', v') :: r
    else if k' = k then (k, v) :: r
    else (k', v') :: insertEntry k v r

theorem mem_insertEntry {k : String} {v : β} {l : List (String × β)} {p : String × β}
    (h : p ∈ insertEntry k v l) : p = (k, v) ∨ p ∈ l := by
  induction l with
  | nil => simpa [insertEntry] using h
  | cons q r ih =>
    obtain ⟨k', v'⟩ := q
    unfold insertEntry at h
    split at h
    · simpa using h
    · split at h
      · simp only [List.mem_cons] at h ⊢
        exact h.imp id Or.inr
      · simp only [List.mem_cons] at h ⊢
        rcases h with h | h
        · exact Or.inr (Or.inl h)
        · exact (ih h).imp id Or.inr

theorem lt_of_not_lt_of_ne {a b : String} (h : ¬ a < b) (hne : b ≠ a) : b < a := by
  rcases Decidable.em (b < a) with h' | h'
  · exact h'
  · exact absurd (String.le_antisymm (String.not_lt.mp h) (String.not_lt.mp h')) hne

theorem sorted_insertEntry (k : String) (v : β) {l : List (String × β)}
    (h : l.Pairwise (fun p q => p.1 < q.1)) :
    (insertEntry k v l).Pairwise (fun p q => p.1 < q.1) := by
  induction l with
  | nil => simp [insertEntry]
  | cons q r ih =>
    obtain ⟨k', v'⟩ := q
    obtain ⟨hq, hr⟩ := List.pairwise_cons.mp h
    unfold insertEntry
    split
    · next hlt =>
      refine List.pairwise_cons.mpr ⟨fun p hp => ?_, h⟩
      rcases List.mem_cons.mp hp with rfl | hp
      · exact hlt
      · exact String.lt_trans hlt (hq p hp)
    · split
      · next heq =>
        subst heq
        exact List.pairwise_cons.mpr ⟨fun p hp => hq p hp, hr⟩
      · next hnlt hne =>
        refine List.pairwise_cons.mpr ⟨fun p hp => ?_, ih hr⟩
        rcases mem_insertEntry hp with rfl | hp
        · exact lt_of_not_lt_of_ne hnlt hne
        · exact hq p hp

/-! ## Operations -/

/-- The table without entries. -/
def empty : Table β := ⟨[], List.Pairwise.nil⟩

instance : EmptyCollection (Table β) := ⟨empty⟩

instance : Inhabited (Table β) := ⟨empty⟩

/-- The value under a name. -/
def get? (t : Table β) (k : String) : Option β := lookup k t.entries

/-- Whether a name is in the table. -/
def contains (t : Table β) (k : String) : Bool := (t.get? k).isSome

/-- The table with a value put under a name, in place of any earlier one. -/
def insert (t : Table β) (k : String) (v : β) : Table β :=
  ⟨insertEntry k v t.entries, sorted_insertEntry k v t.sorted⟩

/-- The table without a name. -/
def erase (t : Table β) (k : String) : Table β :=
  ⟨t.entries.filter (fun p => p.1 ≠ k), t.sorted.filter _⟩

/-- The entries whose name and value pass a test. -/
def filter (p : String → β → Bool) (t : Table β) : Table β :=
  ⟨t.entries.filter (fun e => p e.1 e.2), t.sorted.filter _⟩

/-- The names, in order. -/
def keys (t : Table β) : List String := t.entries.map Prod.fst

/-- The values, in order of their names. -/
def values (t : Table β) : List β := t.entries.map Prod.snd

/-- The number of entries. -/
def size (t : Table β) : Nat := t.entries.length

/-- Whether there is no entry. -/
def isEmpty (t : Table β) : Bool := t.entries.isEmpty

/-- The table with a function applied to every value. -/
def map (f : β → γ) (t : Table β) : Table γ :=
  ⟨t.entries.map (fun p => (p.1, f p.2)), List.pairwise_map.mpr t.sorted⟩

/-- The table of a list of entries; a later entry replaces an earlier one of its name. -/
def ofList (l : List (String × β)) : Table β :=
  l.foldl (fun t p => t.insert p.1 p.2) empty

/-- A function that may fail, applied to the values in order. -/
def mapEntries {ε : Type} (f : β → Except ε γ) :
    List (String × β) → Except ε (List (String × γ))
  | [] => .ok []
  | (k, v) :: r =>
    match f v with
    | .error e => .error e
    | .ok w =>
      match mapEntries f r with
      | .error e => .error e
      | .ok s => .ok ((k, w) :: s)

/-! ## What the operations do to a name -/

theorem lookup_eq_none_of_ne {k : String} {l : List (String × β)}
    (h : ∀ p ∈ l, p.1 ≠ k) : lookup k l = none := by
  induction l with
  | nil => rfl
  | cons q r ih =>
    simp only [lookup, if_neg (h q List.mem_cons_self)]
    exact ih fun p hp => h p (List.mem_cons_of_mem _ hp)

theorem lookup_eq_none_of_lt {k : String} {l : List (String × β)}
    (h : ∀ p ∈ l, k < p.1) : lookup k l = none :=
  lookup_eq_none_of_ne fun p hp e => String.lt_irrefl k (e ▸ h p hp)

theorem lookup_cons_eq_none_of_lt {k : String} {p : String × β} {r : List (String × β)}
    (hp : ∀ q ∈ r, p.1 < q.1) (h : k < p.1) : lookup k (p :: r) = none :=
  lookup_eq_none_of_lt fun q hq => by
    rcases List.mem_cons.mp hq with rfl | hq
    · exact h
    · exact String.lt_trans h (hp q hq)

theorem lookup_insertEntry (k k' : String) (v : β) (l : List (String × β)) :
    lookup k' (insertEntry k v l) = if k = k' then some v else lookup k' l := by
  induction l with
  | nil => simp [insertEntry, lookup]
  | cons q r ih =>
    obtain ⟨a, w⟩ := q
    unfold insertEntry
    split
    · simp only [lookup]
    · split
      · next heq =>
        subst heq
        simp only [lookup]
        split <;> rfl
      · next hne =>
        simp only [lookup, ih]
        split
        · next hak =>
          subst hak
          rw [if_neg (fun e => hne e.symm)]
        · rfl

@[simp]
theorem get?_insert (t : Table β) (k k' : String) (v : β) :
    (t.insert k v).get? k' = if k = k' then some v else t.get? k' :=
  lookup_insertEntry k k' v t.entries

@[simp]
theorem get?_empty (k : String) : (empty : Table β).get? k = none := rfl

theorem lookup_map (f : β → γ) (k : String) (l : List (String × β)) :
    lookup k (l.map (fun p => (p.1, f p.2))) = (lookup k l).map f := by
  induction l with
  | nil => rfl
  | cons q r ih =>
    simp only [List.map_cons, lookup, ih]
    split <;> rfl

@[simp]
theorem get?_map (f : β → γ) (t : Table β) (k : String) :
    (t.map f).get? k = (t.get? k).map f := lookup_map f k t.entries

theorem lookup_filter_ne (k k' : String) (l : List (String × β)) :
    lookup k' (l.filter (fun p => p.1 ≠ k)) = if k = k' then none else lookup k' l := by
  induction l with
  | nil => simp [lookup]
  | cons q r ih =>
    simp only [List.filter_cons, ne_eq, decide_not, Bool.not_eq_eq_eq_not, Bool.not_true,
      decide_eq_false_iff_not] at ih ⊢
    split
    · next h =>
      simp only [lookup, ih]
      split
      · next hq =>
        subst hq
        rw [if_neg (fun e => h e.symm)]
      · rfl
    · next h =>
      have h : q.1 = k := Decidable.not_not.mp h
      rw [ih]
      simp only [lookup, h]
      split <;> rfl

@[simp]
theorem get?_erase (t : Table β) (k k' : String) :
    (t.erase k).get? k' = if k = k' then none else t.get? k' :=
  lookup_filter_ne k k' t.entries

end Table
end LedgerGate

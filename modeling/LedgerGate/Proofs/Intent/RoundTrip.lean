import LedgerGate.Intent.Basic
import LedgerGate.Proofs.Json.Records

/-!
# Reading the text of an intent

An intent is read back from its text as it is exactly if its data form is nested no deeper than the
reader follows; else it is not read at all (`Intent.ofText?_text`). An operator with two operands
takes two levels of nesting and a negation one, so the limit on the nesting of terms is no limit on
that of texts: terms of 62 levels are always read, but of the terms that an acceptable intent may
have, some are not (`Intent.towering`).
-/

namespace LedgerGate

/-! ## Terms -/

namespace Expr

theorem toJson_eq_object (e : Expr) : ∃ field, e.toJson = .object [field] := by
  cases e <;> exact ⟨_, rfl⟩

theorem isPlain_toJson (e : Expr) : e.toJson.IsPlain := by
  induction e with
  | lit text => exact ⟨trivial, trivial⟩
  | var name => exact ⟨trivial, trivial⟩
  | add a b iha ihb => exact ⟨⟨iha, ihb, trivial⟩, trivial⟩
  | sub a b iha ihb => exact ⟨⟨iha, ihb, trivial⟩, trivial⟩
  | mul a b iha ihb => exact ⟨⟨iha, ihb, trivial⟩, trivial⟩
  | neg a ih => exact ⟨ih, trivial⟩

/-- An operator with two operands is nested two levels deeper than they are, and a negation one. -/
theorem depth_toJson_lt (e : Expr) : e.toJson.depth < 2 * e.depth := by
  induction e with
  | lit text => exact Nat.one_lt_two
  | var name => exact Nat.one_lt_two
  | add a b iha ihb =>
    simp only [toJson, Json.depth, Json.fieldsDepth, Json.itemsDepth, depth]
    omega
  | sub a b iha ihb =>
    simp only [toJson, Json.depth, Json.fieldsDepth, Json.itemsDepth, depth]
    omega
  | mul a b iha ihb =>
    simp only [toJson, Json.depth, Json.fieldsDepth, Json.itemsDepth, depth]
    omega
  | neg a ih =>
    simp only [toJson, Json.depth, Json.fieldsDepth, depth]
    omega

/-- What is read of an operator with two operands within a limit of nesting. -/
theorem ofJson?_binary {name : String} {op : Expr → Expr → Expr} {a b : Expr}
    (hop : binary? name = some op)
    (ha : ∀ n, ofJson? (a.toJson.within n) = if a.toJson.depth ≤ n then some a else none)
    (hb : ∀ n, ofJson? (b.toJson.within n) = if b.toJson.depth ≤ n then some b else none)
    (n : Nat) :
    ofJson? ((Json.object [(name, .array [a.toJson, b.toJson])]).within n) =
      if (Json.object [(name, .array [a.toJson, b.toJson])]).depth ≤ n then some (op a b)
      else none := by
  have hdepth : (Json.object [(name, .array [a.toJson, b.toJson])]).depth =
      max a.toJson.depth b.toJson.depth + 2 := by
    simp [Json.depth, Json.fieldsDepth, Json.itemsDepth]
  rw [hdepth]
  obtain _ | _ | n := n
  · rfl
  · rfl
  · show ofJson? (.object [(name, .array [a.toJson.within n, b.toJson.within n])]) = _
    rw [ofJson?, hop, ha, hb]
    simp only [Nat.add_le_add_iff_right, Nat.max_le]
    by_cases hda : a.toJson.depth ≤ n <;> by_cases hdb : b.toJson.depth ≤ n <;>
      simp [hda, hdb]

/-- A term is read within a limit of nesting exactly if its data form is nested no deeper. -/
theorem ofJson?_within (e : Expr) (n : Nat) :
    ofJson? (e.toJson.within n) = if e.toJson.depth ≤ n then some e else none := by
  induction e generalizing n with
  | lit text => cases n <;> rfl
  | var name => cases n <;> rfl
  | add a b iha ihb => exact ofJson?_binary rfl iha ihb n
  | sub a b iha ihb => exact ofJson?_binary rfl iha ihb n
  | mul a b iha ihb => exact ofJson?_binary rfl iha ihb n
  | neg a ih =>
    obtain ⟨field, hfield⟩ := a.toJson_eq_object
    have hdepth : (neg a).toJson.depth = a.toJson.depth + 1 := by
      simp [toJson, Json.depth, Json.fieldsDepth]
    rw [hdepth]
    obtain _ | _ | n := n
    · rfl
    · rw [toJson, hfield]
      rfl
    · -- The operand is an object, which is what a negation is read from.
      have hread : ofJson? ((neg a).toJson.within (n + 2)) =
          (ofJson? (a.toJson.within (n + 1))).map neg := by
        rw [toJson, hfield]
        rfl
      rw [hread, ih]
      by_cases hd : a.toJson.depth ≤ n + 1 <;> simp [hd]

end Expr

/-! ## Predicates, flags and metadata -/

namespace Predicate

theorem isPlain_toJson (p : Predicate) : p.toJson.IsPlain :=
  ⟨p.lhs.isPlain_toJson, trivial, p.rhs.isPlain_toJson, trivial⟩

theorem depth_toJson (p : Predicate) :
    p.toJson.depth = max p.lhs.toJson.depth p.rhs.toJson.depth + 1 := by
  simp [toJson, Json.depth, Json.fieldsDepth]

theorem depth_toJson_le (p : Predicate) : p.toJson.depth ≤ 2 * p.depth := by
  have hlhs := p.lhs.depth_toJson_lt
  have hrhs := p.rhs.depth_toJson_lt
  rw [depth_toJson, depth]
  omega

theorem comparisonOfJson?_name (op : Comparison) :
    comparisonOfJson? (.string op.name) = some op := by
  cases op <;> rfl

/-- A predicate is read within a limit of nesting exactly if its data form is nested no deeper. -/
theorem ofJson?_within (p : Predicate) (n : Nat) :
    ofJson? (p.toJson.within n) = if p.toJson.depth ≤ n then some p else none := by
  rw [depth_toJson]
  cases n with
  | zero => rfl
  | succ n =>
    have hparts : (p.toJson.within (n + 1)).parts? ["lhs", "op", "rhs"] =
        some [some (p.lhs.toJson.within n), some (.string p.op.name),
          some (p.rhs.toJson.within n)] := Json.parts?_object (by decide) rfl
    rw [ofJson?, hparts]
    simp only [Expr.ofJson?_within, comparisonOfJson?_name, Nat.add_le_add_iff_right, Nat.max_le]
    by_cases hlhs : p.lhs.toJson.depth ≤ n <;> by_cases hrhs : p.rhs.toJson.depth ≤ n <;>
      simp [hlhs, hrhs]

end Predicate

theorem Flags.ofJson?_toJson (f : Flags) : ofJson? f.toJson = some f := rfl

theorem Metadata.ofJson?_toJson (m : Metadata) : ofJson? m.toJson = some m := by
  have hparts : m.toJson.parts? ["priority", "target"] =
      some [some (.integer m.priority.toNat), some (.string m.target)] := rfl
  have hmost : m.priority.toNat ≤ Json.maxUInt32 := Nat.le_of_lt_succ m.priority.toNat_lt
  rw [ofJson?, hparts]
  simp [Json.nat?_integer hmost, Json.string?]

/-! ## Intents -/

namespace Intent

theorem isPlain_toJson (i : Intent) : i.toJson.IsPlain := by
  have hguard : (Json.ofList Predicate.toJson i.guard).IsPlain :=
    Json.itemsPlain_map fun p _ => p.isPlain_toJson
  have hverify : (Json.ofList Predicate.toJson i.verify).IsPlain :=
    Json.itemsPlain_map fun p _ => p.isPlain_toJson
  have hpriority : (Json.integer i.metadata.priority.toNat).IsPlain := by
    have hlt := i.metadata.priority.toNat_lt
    have hmost : i.metadata.priority.toNat ≤ Json.maxUInt64 := by
      rw [Json.maxUInt64]
      omega
    exact ⟨by omega, Int.ofNat_le.mpr hmost⟩
  have hflags : (Json.ofTable Flags.toJson i.variableFlags).IsPlain :=
    Json.fieldsPlain_map fun _ _ => ⟨trivial, trivial, trivial⟩
  exact ⟨trivial, hguard, hverify, ⟨hpriority, trivial, trivial⟩, hflags, trivial⟩

/-- How deeply predicates may be nested for their intent to be read. -/
theorem depth_toJson_le_iff (i : Intent) :
    i.toJson.depth ≤ Json.maxDepth ↔ ∀ p ∈ i.predicates, p.toJson.depth ≤ 125 := by
  have hflags : Json.fieldsDepth (i.variableFlags.entries.map fun p => (p.1, p.2.toJson)) ≤ 1 :=
    Json.fieldsDepth_map_le fun _ _ => Nat.le_refl 1
  have hmetadata : i.metadata.toJson.depth = 1 := rfl
  simp only [toJson, Json.depth, Json.fieldsDepth, hmetadata, Json.ofList, Json.ofTable,
    Json.maxDepth, predicates, List.forall_mem_append, ← Json.itemsDepth_map_le_iff]
  omega

/-- What the reader makes of the text of an intent: the intent itself, or nothing if its data form
is nested too deeply. -/
theorem ofText?_text (i : Intent) :
    ofText? i.text = if i.toJson.depth ≤ Json.maxDepth then some i else none := by
  have hread : Json.read? i.text.toList = some (i.toJson.within Json.maxDepth) := by
    rw [text, Json.text, String.toList_ofList]
    exact Json.readWithin?_chars_within i.isPlain_toJson
  have hlist : ∀ l : List Predicate, ((Json.ofList Predicate.toJson l).within 126).list?
      Predicate.ofJson? = if ∀ p ∈ l, p.toJson.depth ≤ 125 then some l else none := fun l =>
    (Json.list?_within _ _ l 125).trans (Json.traverse_ite fun p _ => p.ofJson?_within 125)
  have hparts : (i.toJson.within Json.maxDepth).parts?
      ["id", "guard", "verify", "metadata", "variables"] =
        some [some (.string i.id), some ((Json.ofList Predicate.toJson i.guard).within 126),
          some ((Json.ofList Predicate.toJson i.verify).within 126), some i.metadata.toJson,
          some ((Json.ofTable Flags.toJson i.variableFlags).within 126)] :=
    Json.parts?_object (by decide) rfl
  have hflags : ((Json.ofTable Flags.toJson i.variableFlags).within 126).table? Flags.ofJson? =
      some i.variableFlags := by
    have hdepth : (Json.ofTable Flags.toJson i.variableFlags).depth ≤ 126 :=
      Nat.succ_le_succ (Json.fieldsDepth_map_le fun _ _ => Nat.le_add_left 1 124)
    rw [Json.within_of_depth_le _ hdepth]
    exact Json.table?_ofTable fun _ _ => rfl
  rw [ofText?, hread, Option.bind_some, ofJson?, hparts]
  simp only [Json.string?, hlist, Json.optional, Metadata.ofJson?_toJson, hflags,
    depth_toJson_le_iff, predicates, List.forall_mem_append]
  by_cases hguard : ∀ p ∈ i.guard, p.toJson.depth ≤ 125
  · by_cases hverify : ∀ p ∈ i.verify, p.toJson.depth ≤ 125
    · rw [if_pos hguard, if_pos hverify, if_pos ⟨hguard, hverify⟩]
    · rw [if_pos hguard, if_neg hverify, if_neg (not_and_of_not_right _ hverify)]
  · rw [if_neg hguard, if_neg (not_and_of_not_left _ hguard)]

/-- An intent is read back from its text as it is if no predicate is nested more than 125 deep as
data, which is so for all terms of up to 62 levels; else it is not read at all. -/
theorem ofText?_text_eq (i : Intent) :
    (ofText? i.text = if ∀ p ∈ i.predicates, p.toJson.depth ≤ 125 then some i else none) ∧
      ((∀ p ∈ i.predicates, p.depth ≤ 62) → ofText? i.text = some i) := by
  have hread := i.ofText?_text
  simp only [depth_toJson_le_iff] at hread
  refine ⟨hread, fun hdepth => hread.trans (if_pos fun p hp => ?_)⟩
  have hterms := hdepth p hp
  have hdata := p.depth_toJson_le
  omega

/-- One and one and one, nested to the left. -/
def tower : Nat → Expr
  | 0 => .lit "1"
  | n + 1 => .add (tower n) (.lit "1")

theorem depth_tower (n : Nat) : (tower n).depth = n + 1 := by
  induction n with
  | zero => rfl
  | succ n ih =>
    rw [tower, Expr.depth, ih, Expr.depth]
    omega

theorem depth_toJson_tower (n : Nat) : (tower n).toJson.depth = 2 * n + 1 := by
  induction n with
  | zero => rfl
  | succ n ih =>
    simp only [tower, Expr.toJson, Json.depth, Json.fieldsDepth, Json.itemsDepth, ih]
    omega

theorem occurrences_tower (n : Nat) : (tower n).occurrences = [] := by
  induction n with
  | zero => rfl
  | succ n ih => rw [tower, Expr.occurrences, ih]; rfl

/-- An intent that compares a sum of so many ones with one. -/
def towering (n : Nat) : Intent := ofPredicates "tower" [] [⟨tower n, .ge, .lit "1"⟩]

/-- A sum of up to 64 levels is acceptable. -/
theorem validate_towering {n : Nat} (h : n < maxDepth) : (towering n).validate = .ok () := by
  have hdepth : (⟨tower n, .ge, .lit "1"⟩ : Predicate).depth ≤ maxDepth := by
    rw [Predicate.depth, depth_tower]
    exact Nat.max_le.mpr ⟨h, Nat.one_le_of_lt h⟩
  have hcheck : checkPredicate ⟨tower n, .ge, .lit "1"⟩ = .ok () := by
    rw [checkPredicate, if_neg (Nat.not_lt.mpr hdepth), Predicate.occurrences, occurrences_tower]
    rfl
  show checkPredicates [_] = .ok ()
  rw [checkPredicates, hcheck]
  rfl

/-- Of two acceptable intents the one with the deeper term is not read from its text. -/
theorem ofText?_text_eq_towering :
    (towering 62).validate = .ok () ∧ ofText? (towering 62).text = none ∧
      (towering 61).validate = .ok () ∧ ofText? (towering 61).text = some (towering 61) := by
  have hdeep : ¬ ∀ p ∈ (towering 62).predicates, p.toJson.depth ≤ 125 := by
    intro h
    have hmem := h ⟨tower 62, .ge, .lit "1"⟩ List.mem_cons_self
    rw [Predicate.depth_toJson, depth_toJson_tower] at hmem
    omega
  have hterms : ∀ p ∈ (towering 61).predicates, p.depth ≤ 62 := by
    intro p hp
    obtain rfl := List.mem_singleton.mp hp
    rw [Predicate.depth, depth_tower]
    decide
  exact ⟨validate_towering (by decide), (ofText?_text_eq _).1.trans (if_neg hdeep),
    validate_towering (by decide), (ofText?_text_eq _).2 hterms⟩

end Intent
end LedgerGate

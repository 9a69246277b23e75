import LedgerGate.Proofs.Intent.RoundTrip
import LedgerGate.Proofs.Json.Equality

/-!
# What the content of an intent is identified by

The text that is digested for an intent is the canonical text of a data value. Those texts tell
all exact values apart that are not the same, and the data form of an intent can be taken apart
into its terms, flags and names; so no two intents have one text (`Intent.canonical_binds`).
-/

namespace LedgerGate

/-! ## Terms -/

namespace Expr

/-- An object with one field is in its order already. -/
theorem sorted_toJson (e : Expr) : e.toJson.sorted = e.toJson := by
  have hbinary : ∀ (op : String) {a b : Json}, a.sorted = a → b.sorted = b →
      (Json.object [(op, .array [a, b])]).sorted = .object [(op, .array [a, b])] := by
    intro op a b ha hb
    simp only [Json.sorted, Json.sortedFields, Json.sortedItems, ha, hb]
    rfl
  induction e with
  | lit text => rfl
  | var name => rfl
  | add a b iha ihb => exact hbinary "add" iha ihb
  | sub a b iha ihb => exact hbinary "sub" iha ihb
  | mul a b iha ihb => exact hbinary "mul" iha ihb
  | neg a ih =>
    simp only [toJson, Json.sorted, Json.sortedFields, ih]
    rfl

theorem operands_injective {op : String} {a b c d : Json}
    (h : Json.object [(op, .array [a, b])] = .object [(op, .array [c, d])]) : a = c ∧ b = d := by
  simpa using h

theorem toJson_injective {e f : Expr} (h : e.toJson = f.toJson) : e = f := by
  induction e generalizing f with
  | lit text => cases f <;> simp_all [toJson]
  | var name => cases f <;> simp_all [toJson]
  | add a b iha ihb =>
    cases f with
    | add c d =>
      obtain ⟨ha, hb⟩ := operands_injective h
      rw [iha ha, ihb hb]
    | _ => simp [toJson] at h
  | sub a b iha ihb =>
    cases f with
    | sub c d =>
      obtain ⟨ha, hb⟩ := operands_injective h
      rw [iha ha, ihb hb]
    | _ => simp [toJson] at h
  | mul a b iha ihb =>
    cases f with
    | mul c d =>
      obtain ⟨ha, hb⟩ := operands_injective h
      rw [iha ha, ihb hb]
    | _ => simp [toJson] at h
  | neg a ih =>
    cases f with
    | neg b =>
      simp only [toJson, Json.object.injEq, List.cons.injEq, Prod.mk.injEq, true_and,
        and_true] at h
      rw [ih h]
    | _ => simp [toJson] at h

end Expr

/-! ## Predicates, flags and metadata -/

theorem Comparison.name_injective : Function.Injective Comparison.name := by
  intro c d h
  cases c <;> cases d <;> first | rfl | exact absurd h (by decide)

namespace Predicate

/-- A predicate is determined by its data form with the fields in any order. -/
theorem sorted_toJson_injective {p q : Predicate} (h : p.toJson.sorted = q.toJson.sorted) :
    p = q := by
  have hfind := Json.sorted_under_eq (by simp) (by simp) h
  have hlhs := hfind "lhs"
  have hop := hfind "op"
  have hrhs := hfind "rhs"
  simp [Table.lookup, Expr.sorted_toJson, Json.sorted] at hlhs hop hrhs
  obtain ⟨lhs, op, rhs⟩ := p
  obtain ⟨lhs', op', rhs'⟩ := q
  obtain rfl : lhs = lhs' := Expr.toJson_injective hlhs
  obtain rfl : op = op' := Comparison.name_injective hop
  obtain rfl : rhs = rhs' := Expr.toJson_injective hrhs
  rfl

end Predicate

theorem Flags.sorted_toJson_injective {f g : Flags} (h : f.toJson.sorted = g.toJson.sorted) :
    f = g := by
  have hfind := Json.sorted_under_eq (by simp) (by simp) h
  have hexternal := hfind "external"
  have hsecret := hfind "secret"
  simp [Table.lookup, Json.sorted] at hexternal hsecret
  cases f
  cases g
  simp_all

theorem Metadata.sorted_toJson_injective {m n : Metadata}
    (h : m.toJson.sorted = n.toJson.sorted) : m = n := by
  have hfind := Json.sorted_under_eq (by simp) (by simp) h
  have hpriority := hfind "priority"
  have htarget := hfind "target"
  simp [Table.lookup, Json.sorted] at hpriority htarget
  obtain ⟨priority, target⟩ := m
  obtain ⟨priority', target'⟩ := n
  obtain rfl : priority = priority' := UInt32.toNat_inj.mp (by exact_mod_cast hpriority)
  obtain rfl : target = target' := htarget
  rfl

/-! ## Intents -/

namespace Intent

/-- An intent is determined by its data form with the fields in any order. -/
theorem sorted_toJson_injective {i j : Intent} (h : i.toJson.sorted = j.toJson.sorted) :
    i = j := by
  have hfind := Json.sorted_under_eq (by simp) (by simp) h
  have hid := hfind "id"
  have hguard := hfind "guard"
  have hverify := hfind "verify"
  have hmetadata := hfind "metadata"
  have hflags := hfind "variables"
  simp only [Table.lookup, String.reduceEq, if_false, if_true, Option.map_some,
    Option.some.injEq] at hid hguard hverify hmetadata hflags
  obtain ⟨id, guard, verify, metadata, flags⟩ := i
  obtain ⟨id', guard', verify', metadata', flags'⟩ := j
  obtain rfl : id = id' := Json.string.inj hid
  obtain rfl : guard = guard' :=
    Json.sorted_ofList_injective Predicate.sorted_toJson_injective hguard
  obtain rfl : verify = verify' :=
    Json.sorted_ofList_injective Predicate.sorted_toJson_injective hverify
  obtain rfl : metadata = metadata' := Metadata.sorted_toJson_injective hmetadata
  obtain rfl : flags = flags' := Json.sorted_ofTable_injective Flags.sorted_toJson_injective hflags
  rfl

theorem isExact_toJson (i : Intent) : i.toJson.IsExact := i.isPlain_toJson.isExact

/-- Exact values have one canonical text if and only if they are the same, and intents have one
text to digest if and only if they are equal. -/
theorem canonical_binds :
    (∀ v w : Json, v.IsExact → w.IsExact → (v.canonical = w.canonical ↔ Json.Same v w)) ∧
      ∀ i j : Intent, i.preimage = j.preimage ↔ i = j := by
  constructor
  · intro v w hv hw
    exact Json.canonical_eq_iff_same hv hw
  · intro i j
    constructor
    · intro h
      apply sorted_toJson_injective
      exact i.isExact_toJson.sorted_eq_of_canonical_eq j.isExact_toJson h
    · intro h
      rw [h]

/-- A value in which objects stand inside an array and a text has signs that are escaped. -/
def nested : Json :=
  .object [("b", .array [.integer (-12), .null, .string "\"ü\"\n"]),
    ("a", .object [("y", .bool true), ("x", .array [])])]

/-- The value of `nested` with the fields of both objects in another order. -/
def nestedBackwards : Json :=
  .object [("a", .object [("x", .array []), ("y", .bool true)]),
    ("b", .array [.integer (-12), .null, .string "\"ü\"\n"])]

theorem canonical_binds_nested :
    nested.IsExact ∧ nestedBackwards.IsExact ∧ nested.canonical = nestedBackwards.canonical ∧
      Json.Same nested nestedBackwards := by
  have hexact : nested.IsExact := by simp [nested, Json.IsExact, Json.ItemsExact, Json.FieldsExact]
  have hexact' : nestedBackwards.IsExact := by
    simp [nestedBackwards, Json.IsExact, Json.ItemsExact, Json.FieldsExact]
  have htext : nested.canonical = nestedBackwards.canonical := by rfl
  exact ⟨hexact, hexact', htext, (canonical_binds.1 _ _ hexact hexact').mp htext⟩

end Intent
end LedgerGate

import LedgerGate.Decimal.Json
import LedgerGate.Intent.Predicate
import LedgerGate.Json.Reader
import LedgerGate.Json.Writer
import LedgerGate.Sha256

/-!
# Intents

An intent proposes a transition of the ledger: what must hold before it, what must
hold across it, and which of its variables come from outside or are private.
-/

namespace LedgerGate

/-- What is known of a variable. -/
structure Flags where
  /-- The value is supplied from outside. -/
  external : Bool
  /-- The value is private. -/
  secret : Bool
deriving DecidableEq, Repr, Inhabited

/-- What accompanies an intent without a meaning for its verification. -/
structure Metadata where
  priority : UInt32
  target : String
deriving DecidableEq, Repr, Inhabited

/-- A proposed transition of the ledger. -/
structure Intent where
  id : String
  guard : List Predicate
  verify : List Predicate
  metadata : Metadata
  variableFlags : Table Flags
deriving DecidableEq, Repr, Inhabited

namespace Flags

/-- The flags of a variable of which nothing is said. -/
def plain : Flags := ⟨false, false⟩

/-- The data form of flags. -/
def toJson (f : Flags) : Json :=
  .object [("external", .bool f.external), ("secret", .bool f.secret)]

/-- The flags of a data value. -/
def ofJson? (v : Json) : Option Flags :=
  match v.parts? ["external", "secret"] with
  | some [e, s] =>
    match Json.optional Json.bool? false e, Json.optional Json.bool? false s with
    | some external, some secret => some ⟨external, secret⟩
    | _, _ => none
  | _ => none

end Flags

namespace Metadata

/-- The metadata of an intent that comes without. -/
def none : Metadata := ⟨0, ""⟩

/-- The data form of metadata. -/
def toJson (m : Metadata) : Json :=
  .object [("priority", .integer m.priority.toNat), ("target", .string m.target)]

/-- The metadata of a data value. -/
def ofJson? (v : Json) : Option Metadata :=
  match v.parts? ["priority", "target"] with
  | some [some p, some t] =>
    match p.nat? Json.maxUInt32, t.string? with
    | some priority, some target => some ⟨UInt32.ofNat priority, target⟩
    | _, _ => Option.none
  | _ => Option.none

end Metadata

namespace Intent

/-- The largest number of predicates. -/
def maxPredicates : Nat := 1024

/-- The deepest nesting of a term. -/
def maxDepth : Nat := 64

/-- An intent without metadata and flags. -/
def ofPredicates (id : String) (guard verify : List Predicate) : Intent :=
  ⟨id, guard, verify, Metadata.none, Table.empty⟩

/-- The predicates of the guard, then those across the transition. -/
def predicates (i : Intent) : List Predicate := i.guard ++ i.verify

/-- What is known of a variable. -/
def flags (i : Intent) (name : String) : Flags := (i.variableFlags.get? name).getD Flags.plain

/-- Whether the value of a variable comes from outside. -/
def isExternal (i : Intent) (name : String) : Bool := (i.flags name).external

/-- Whether the value of a variable is private. -/
def isSecret (i : Intent) (name : String) : Bool := (i.flags name).secret

/-- The assignments of balances, in order. -/
def assignments (i : Intent) : List (String × Expr) := i.verify.filterMap Predicate.assignment?

/-- What a predicate of an acceptable intent obeys. -/
def checkPredicate (p : Predicate) : Except Fault Unit :=
  if maxDepth < p.depth then .error (.limitExceeded "expression_depth" maxDepth p.depth)
  else if p.occurrences.contains "" then
    .error (.invalid "variables" "variable names must be non-empty")
  else .ok ()

/-- The first fault of a list of predicates. -/
def checkPredicates : List Predicate → Except Fault Unit
  | [] => .ok ()
  | p :: r =>
    match checkPredicate p with
    | .ok () => checkPredicates r
    | .error e => .error e

/-- Whether an intent is acceptable, or why not. -/
def validate (i : Intent) : Except Fault Unit :=
  let count := i.guard.length + i.verify.length
  if i.id = "" then .error (.invalid "id" "Intent must have a non-empty ID")
  else if maxPredicates < count then
    .error (.limitExceeded "intent_predicates" maxPredicates count)
  else checkPredicates i.predicates

/-! ## Data form -/

/-- The data form of an intent. -/
def toJson (i : Intent) : Json :=
  .object [("id", .string i.id), ("guard", Json.ofList Predicate.toJson i.guard),
    ("verify", Json.ofList Predicate.toJson i.verify), ("metadata", i.metadata.toJson),
    ("variables", Json.ofTable Flags.toJson i.variableFlags)]

/-- The intent of a data value. -/
def ofJson? (v : Json) : Option Intent :=
  match v.parts? ["id", "guard", "verify", "metadata", "variables"] with
  | some [some id, some guard, some verify, metadata, flags] =>
    match id.string?, guard.list? Predicate.ofJson?, verify.list? Predicate.ofJson?,
      Json.optional Metadata.ofJson? Metadata.none metadata,
      Json.optional (Json.table? Flags.ofJson?) Table.empty flags with
    | some id, some guard, some verify, some metadata, some flags =>
      some ⟨id, guard, verify, metadata, flags⟩
    | _, _, _, _, _ => none
  | _ => none

/-- The text of an intent. -/
def text (i : Intent) : String := i.toJson.text

/-- The intent of a text. -/
def ofText? (s : String) : Option Intent := (Json.read? s.toList).bind ofJson?

/-- The text that is hashed to identify an intent by its content. -/
def preimage (i : Intent) : String := i.toJson.canonical

/-- The digest that identifies an intent by its content. -/
def contentHash (i : Intent) : String := Sha256.textDigest i.preimage

end Intent
end LedgerGate

import LedgerGate.Table
import LedgerGate.Binary64.Text

/-!
# Data values

The values of the interchange format in which intents, logs, states and events
are written. An object is a list of named values in the order in which they are
written, and may hold one name more than once; `Json.sorted` is the same value
read as a map, where the last of equal names counts.
-/

namespace LedgerGate

/-- A data value. -/
inductive Json where
  | null
  | bool (b : Bool)
  | integer (n : Int)
  | float (x : Float)
  | string (s : String)
  | array (items : List Json)
  | object (fields : List (String × Json))
  /-- Grammatical text without a value: half a surrogate pair, a number out of
  range, or nesting that is too deep. -/
  | broken
deriving Inhabited

namespace Json

/-- The object of a table. -/
def ofTable {β : Type} (f : β → Json) (t : Table β) : Json :=
  object (t.entries.map (fun p => (p.1, f p.2)))

/-- The list of values made from a list. -/
def ofList {α : Type} (f : α → Json) (l : List α) : Json := array (l.map f)

/-- A value, or null. -/
def ofOption {α : Type} (f : α → Json) : Option α → Json
  | some a => f a
  | none => null

mutual

/-- A value with the fields of every object sorted by name, the last of equal names
being kept. -/
def sorted : Json → Json
  | array items => array (sortedItems items)
  | object fields => object (Table.ofList (sortedFields fields)).entries
  | v => v

/-- The items of an array, each sorted. -/
def sortedItems : List Json → List Json
  | [] => []
  | v :: r => sorted v :: sortedItems r

/-- The fields of an object in their order, each with its value sorted. -/
def sortedFields : List (String × Json) → List (String × Json)
  | [] => []
  | (k, v) :: r => (k, sorted v) :: sortedFields r

end

mutual

/-- Whether every part of the text had a value. -/
def isWhole : Json → Bool
  | broken => false
  | array items => itemsWhole items
  | object fields => fieldsWhole fields
  | _ => true

/-- Whether every item has a value. -/
def itemsWhole : List Json → Bool
  | [] => true
  | v :: r => isWhole v && itemsWhole r

/-- Whether every field has a value. -/
def fieldsWhole : List (String × Json) → Bool
  | [] => true
  | (_, v) :: r => isWhole v && fieldsWhole r

end

/-! ## Access -/

/-- The text of a string. -/
def string? : Json → Option String
  | string s => some s
  | _ => none

/-- A truth value. -/
def bool? : Json → Option Bool
  | bool b => some b
  | _ => none

/-- The largest unsigned 64-bit number. -/
def maxUInt64 : Nat := 18446744073709551615

/-- The largest unsigned 32-bit number. -/
def maxUInt32 : Nat := 4294967295

/-- A whole number from zero to a bound. -/
def nat? (most : Nat) : Json → Option Nat
  | integer n => if 0 ≤ n ∧ n ≤ most then some n.toNat else none
  | _ => none

/-- The closest floating-point number to a whole number. -/
def floatOfInt (n : Int) : Float :=
  if n < 0 then -(Binary64.nearest n.natAbs 1) else Binary64.nearest n.natAbs 1

/-- A number, whole or not. -/
def float? : Json → Option Float
  | integer n => some (floatOfInt n)
  | float x => some x
  | _ => none

/-- A function that may fail, on every item of a list. -/
def traverse {α β : Type} (f : α → Option β) : List α → Option (List β)
  | [] => some []
  | a :: r =>
    match f a, traverse f r with
    | some b, some bs => some (b :: bs)
    | _, _ => none

/-- The items of an array. -/
def list? {α : Type} (f : Json → Option α) : Json → Option (List α)
  | array items => traverse f items
  | _ => none

/-- An object read as a map. -/
def table? {α : Type} (f : Json → Option α) : Json → Option (Table α)
  | object fields =>
    (traverse (fun p : String × Json => (f p.2).map (fun v => (p.1, v))) fields).map Table.ofList
  | _ => none

/-- A value that may be null. -/
def option? {α : Type} (f : Json → Option α) : Json → Option (Option α)
  | null => some none
  | v => (f v).map some

/-- The values under a name, in an object's fields. -/
def allNamed (name : String) (fields : List (String × Json)) : List Json :=
  fields.filterMap (fun p => if p.1 = name then some p.2 else none)

/-- The parts of a record with the given field names: an object in which no known
name is repeated, or an array of the parts in the order of the names. Other names
in an object are passed over; a missing part is `none`. -/
def parts? (names : List String) : Json → Option (List (Option Json))
  | object fields =>
    traverse (fun name =>
      match allNamed name fields with
      | [] => some none
      | [v] => some (some v)
      | _ => none) names
  | array items =>
    if items.length ≤ names.length then
      some (items.map some ++ List.replicate (names.length - items.length) none)
    else none
  | _ => none

/-- The parts of a record as `parts?` takes them, where an array may go on after them. -/
def leadingParts? (names : List String) : Json → Option (List (Option Json))
  | array items => parts? names (array (items.take names.length))
  | v => parts? names v

/-- A part that has to be there. -/
def required {α : Type} (f : Json → Option α) : Option Json → Option α
  | some v => f v
  | none => none

/-- A part that may be left out. -/
def optional {α : Type} (f : Json → Option α) (fallback : α) : Option Json → Option α
  | some v => f v
  | none => some fallback

/-- A choice among named cases: a bare name, or an object with one name and what
belongs to it. -/
def choice? : Json → Option (String × Option Json)
  | string s => some (s, none)
  | object [(k, v)] => some (k, some v)
  | _ => none

/-- The name of a choice without further data. -/
def bareChoice? (v : Json) : Option String :=
  match choice? v with
  | some (k, none) => some k
  | some (k, some null) => some k
  | _ => none

/-- The value under a name of an object; of equal names the last. -/
def get? (name : String) : Json → Option Json
  | object fields => (allNamed name fields).getLast?
  | _ => none

end Json
end LedgerGate

import LedgerGate.Json.Basic

/-!
# Tables of settings texts

The tables that the lines of a settings text fill. A key may be set only once. A table
may be extended only by what made it: by keys of several parts, or by its one header. A
header may also stand for one more element of a list of tables, of which only the last
element can still be extended.
-/

namespace LedgerGate.Toml

/-- How a table came to be. -/
inductive Origin where
  /-- On the way to the table of a header. -/
  | passing
  /-- By a key of several parts. -/
  | dotted
  /-- By a header of its own. -/
  | header
deriving DecidableEq, Repr

/-- A value, or what is still being filled: a table, or a list of tables. -/
inductive Node where
  | value (v : Json)
  | table (origin : Origin) (entries : List (String × Node))
  /-- The elements before the last one, in reverse, and the entries of the last one. -/
  | tables (earlier : List Json) (last : List (String × Node))
deriving Inhabited

/-- The named entries of a table. -/
abbrev Entries := List (String × Node)

mutual

/-- The data value of a node. -/
def Node.toJson : Node → Json
  | .value v => v
  | .table _ es => .object (entriesJson es)
  | .tables earlier es => .array (.object (entriesJson es) :: earlier).reverse

/-- The fields of a table. -/
def entriesJson : List (String × Node) → List (String × Json)
  | [] => []
  | (k, n) :: r => (k, n.toJson) :: entriesJson r

end

namespace Entries

/-- The entry of a name. -/
def find? (name : String) : Entries → Option Node
  | [] => none
  | (k, n) :: r => if k = name then some n else find? name r

/-- The entries with one replaced, or added at the end. -/
def put (name : String) (es : Entries) (node : Node) : Entries :=
  match es with
  | [] => [(name, node)]
  | (k, n) :: r => if k = name then (k, node) :: r else (k, n) :: put name r node

end Entries

namespace Node

/-- Changes the table that a node stands for; of a list of tables it is the last one. -/
def within (f : Entries → Option Entries) : Node → Option Node
  | value _ => none
  | table origin es => (f es).map (table origin)
  | tables earlier es => (f es).map (tables earlier)

/-- Whether a key may lead through a node. Only a table that such keys have made may be
the one that receives the value. -/
def admitsKey (receives : Bool) : Node → Bool
  | value _ => false
  | table .header _ => false
  | table .passing _ => !receives
  | table .dotted _ => true
  | tables .. => !receives

end Node

open Entries (find? put)

/-- Sets a key of one or more parts, which must be new. -/
def setKey (v : Json) : List String → Entries → Option Entries
  | [], _ => none
  | [k], es =>
    match find? k es with
    | some _ => none
    | none => some (put k es (.value v))
  | k :: rest, es =>
    match find? k es with
    | none => (setKey v rest []).map (fun t => put k es (.table .dotted t))
    | some n =>
      if n.admitsKey (rest.length == 1) then (n.within (setKey v rest)).map (put k es) else none

/-- Changes what stands at the end of a header's path. Tables on the way are made where
there are none. -/
def openAt (f : Option Node → Option Node) : List String → Entries → Option Entries
  | [], _ => none
  | [k], es => (f (find? k es)).map (put k es)
  | k :: rest, es =>
    match find? k es with
    | none => (openAt f rest []).map (fun t => put k es (.table .passing t))
    | some n => (n.within (openAt f rest)).map (put k es)

/-- The table of a header, which must not have had one and not have been made by a key. -/
def headedTable : Option Node → Option Node
  | none => some (.table .header [])
  | some (.table .passing es) => some (.table .header es)
  | some _ => none

/-- A list of tables with one more element. -/
def headedElement : Option Node → Option Node
  | none => some (.tables [] [])
  | some (.tables earlier last) => some (.tables (.object (entriesJson last) :: earlier) [])
  | some _ => none

/-- Sets a key inside the table of the last header. -/
def setIn (keys : List String) (v : Json) : List String → Entries → Option Entries
  | [], es => setKey v keys es
  | k :: rest, es =>
    match find? k es with
    | none => none
    | some n => (n.within (setIn keys v rest)).map (put k es)

end LedgerGate.Toml

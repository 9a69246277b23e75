import LedgerGate.Json.Basic

/-!
# Terms

Arithmetic terms over the variables of an intent. A literal keeps the text in which
it was written; it becomes a number only when a verifier reads it.
-/

namespace LedgerGate

/-- An arithmetic term. -/
inductive Expr where
  | lit (text : String)
  | var (name : String)
  | add (a b : Expr)
  | sub (a b : Expr)
  | mul (a b : Expr)
  | neg (a : Expr)
deriving DecidableEq, Repr, Inhabited

/-- The distinct names of a list, in order. -/
def distinctNames (names : List String) : List String :=
  (Table.ofList (names.map (fun n => (n, ())))).keys

namespace Expr

/-- The nesting of a term. -/
def depth : Expr → Nat
  | lit _ | var _ => 1
  | neg a => 1 + a.depth
  | add a b | sub a b | mul a b => 1 + max a.depth b.depth

/-- The number of operators, literals and variables. -/
def size : Expr → Nat
  | lit _ | var _ => 1
  | neg a => 1 + a.size
  | add a b | sub a b | mul a b => 1 + a.size + b.size

/-- Whether the term is more than a literal or a variable. -/
def isCompound : Expr → Bool
  | lit _ | var _ => false
  | _ => true

/-- Every occurrence of a variable, from left to right. -/
def occurrences : Expr → List String
  | lit _ => []
  | var name => [name]
  | neg a => a.occurrences
  | add a b | sub a b | mul a b => a.occurrences ++ b.occurrences

/-- The literals, from left to right. -/
def literals : Expr → List String
  | lit text => [text]
  | var _ => []
  | neg a => a.literals
  | add a b | sub a b | mul a b => a.literals ++ b.literals

/-- The distinct variables, in order of name. -/
def variableNames (e : Expr) : List String := distinctNames e.occurrences

/-- Whether a variable occurs. -/
def mentions (e : Expr) (name : String) : Bool := e.occurrences.contains name

/-! ## Data form -/

/-- The data form of a term: an object with the operator as its one name. -/
def toJson : Expr → Json
  | lit text => .object [("lit", .string text)]
  | var name => .object [("var", .string name)]
  | add a b => .object [("add", .array [a.toJson, b.toJson])]
  | sub a b => .object [("sub", .array [a.toJson, b.toJson])]
  | mul a b => .object [("mul", .array [a.toJson, b.toJson])]
  | neg a => .object [("neg", a.toJson)]

/-- The operator of a name that takes two operands. -/
def binary? : String → Option (Expr → Expr → Expr)
  | "add" => some add
  | "sub" => some sub
  | "mul" => some mul
  | _ => none

/-- The term of a data value. -/
def ofJson? : Json → Option Expr
  | .object [(k, .string s)] =>
    if k = "lit" then some (lit s) else if k = "var" then some (var s) else none
  | .object [(k, .array [v, w])] =>
    match binary? k, ofJson? v, ofJson? w with
    | some op, some a, some b => some (op a b)
    | _, _, _ => none
  | .object [(k, .object fields)] =>
    if k = "neg" then (ofJson? (.object fields)).map neg else none
  | _ => none

end Expr
end LedgerGate

import LedgerGate.Intent.BalanceName
import LedgerGate.Intent.Expr

/-!
# Predicates

A predicate compares two terms. One of the form `a.balance' == term`, in either
orientation, assigns a balance.
-/

namespace LedgerGate

/-- How two terms are compared. -/
inductive Comparison where
  | eq
  | ne
  | lt
  | le
  | gt
  | ge
deriving DecidableEq, Repr, Inhabited

namespace Comparison

/-- The sign of a comparison. -/
def symbol : Comparison → String
  | eq => "=="
  | ne => "!="
  | lt => "<"
  | le => "<="
  | gt => ">"
  | ge => ">="

/-- The name of a comparison in data. -/
def name : Comparison → String
  | eq => "eq"
  | ne => "ne"
  | lt => "lt"
  | le => "le"
  | gt => "gt"
  | ge => "ge"

/-- The comparison of a name. -/
def ofName? (s : String) : Option Comparison :=
  [eq, ne, lt, le, gt, ge].find? (fun c => c.name = s)

end Comparison

/-- A comparison of two terms. -/
structure Predicate where
  lhs : Expr
  op : Comparison
  rhs : Expr
deriving DecidableEq, Repr, Inhabited

namespace Predicate

/-- The deeper nesting of the two sides. -/
def depth (p : Predicate) : Nat := max p.lhs.depth p.rhs.depth

/-- The number of operators, literals and variables, with the comparison. -/
def size (p : Predicate) : Nat := 1 + p.lhs.size + p.rhs.size

/-- Every occurrence of a variable, from left to right. -/
def occurrences (p : Predicate) : List String := p.lhs.occurrences ++ p.rhs.occurrences

/-- The distinct variables, in order of name. -/
def variableNames (p : Predicate) : List String := distinctNames p.occurrences

/-- The literals, from left to right. -/
def literals (p : Predicate) : List String := p.lhs.literals ++ p.rhs.literals

/-- The account whose balance after the transition a term is. -/
def assignedAccount? : Expr → Option String
  | .var name => BalanceName.afterAccount? name
  | _ => none

/-- The account that the predicate assigns, with the term it is assigned. -/
def assignment? (p : Predicate) : Option (String × Expr) :=
  if p.op = .eq then
    match assignedAccount? p.lhs with
    | some account => some (account, p.rhs)
    | none => (assignedAccount? p.rhs).map (fun account => (account, p.lhs))
  else none

/-- The data form of a predicate. -/
def toJson (p : Predicate) : Json :=
  .object [("lhs", p.lhs.toJson), ("op", .string p.op.name), ("rhs", p.rhs.toJson)]

/-- The comparison of a data value. -/
def comparisonOfJson? (v : Json) : Option Comparison :=
  v.bareChoice?.bind Comparison.ofName?

/-- The predicate of a data value. -/
def ofJson? (v : Json) : Option Predicate :=
  match v.parts? ["lhs", "op", "rhs"] with
  | some [some l, some o, some r] =>
    match Expr.ofJson? l, comparisonOfJson? o, Expr.ofJson? r with
    | some lhs, some op, some rhs => some ⟨lhs, op, rhs⟩
    | _, _, _ => none
  | _ => none

end Predicate
end LedgerGate

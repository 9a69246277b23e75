import LedgerGate.Decimal.Text
import LedgerGate.Intent.Predicate
import LedgerGate.Solver.Linear

/-!
# Constraints

A constraint relates a linear form to zero. A comparison of two terms is the constraint on
their difference. A predicate whose terms are not linear, or whose literals are not exact
decimals, has no constraint.
-/

namespace LedgerGate

/-- How a form is related to zero. -/
inductive Relation where
  | eq
  | ne
  | le
  | lt
deriving DecidableEq, Repr, Inhabited

/-- The place of a relation in the order of rows. -/
def Relation.rank : Relation → Nat
  | .eq => 0
  | .ne => 1
  | .le => 2
  | .lt => 3

/-- A form that is related to zero. -/
structure Constraint where
  linear : Linear
  relation : Relation
deriving DecidableEq, Inhabited

namespace Constraint

/-- Whether a constraint without variables is true. -/
def holdsTrivially (c : Constraint) : Bool :=
  match c.relation with
  | .eq => c.linear.constant.orderZero == .eq
  | .ne => c.linear.constant.orderZero != .eq
  | .le => c.linear.constant.orderZero != .gt
  | .lt => c.linear.constant.orderZero == .lt

/-- The constraint that a variable has a value. -/
def pin? (name : String) (value : Fraction) : Option Constraint :=
  ((Linear.ofVariable name).sub? (Linear.ofFraction value)).map (fun l => ⟨l, .eq⟩)

/-- The order of rows: by their forms, then by their relations. -/
def order (a b : Constraint) : Ordering :=
  (a.linear.order b.linear).then (compare a.relation.rank b.relation.rank)

/-- Why a term or predicate has no linear form. -/
inductive LinearError where
  /-- A literal is not an exact decimal. -/
  | malformed (fault : Fault)
  /-- Two terms with variables are multiplied. -/
  | nonlinear
  /-- A number leaves its range. -/
  | overflow
deriving DecidableEq, Repr

/-- A form, or the report that a number left its range. -/
def orOverflow {α : Type} : Option α → Except LinearError α
  | some a => .ok a
  | none => .error .overflow

/-- The product of two forms, one of which must be constant. -/
def product (a b : Linear) : Except LinearError Linear :=
  if a.isConstant then orOverflow (b.scale? a.constant)
  else if b.isConstant then orOverflow (a.scale? b.constant)
  else .error .nonlinear

/-- The form of a literal. -/
def ofLiteral (text : String) (precision : Nat) : Except LinearError Linear :=
  match Decimal.parse text precision with
  | .error e => .error (.malformed e)
  | .ok d => orOverflow ((Fraction.ofDecimal? d).map Linear.ofFraction)

/-- The forms of two terms put together, the first one's error coming first. -/
def both (a b : Except LinearError Linear)
    (f : Linear → Linear → Except LinearError Linear) : Except LinearError Linear :=
  match a with
  | .error e => .error e
  | .ok x =>
    match b with
    | .error e => .error e
    | .ok y => f x y

/-- The linear form of a term. -/
def ofExpr (precision : Nat) : Expr → Except LinearError Linear
  | .lit text => ofLiteral text precision
  | .var name => .ok (Linear.ofVariable name)
  | .neg a =>
    match ofExpr precision a with
    | .error e => .error e
    | .ok x => orOverflow (x.scale? Fraction.minusOne)
  | .add a b => both (ofExpr precision a) (ofExpr precision b) (fun x y => orOverflow (x.add? y))
  | .sub a b => both (ofExpr precision a) (ofExpr precision b) (fun x y => orOverflow (x.sub? y))
  | .mul a b => both (ofExpr precision a) (ofExpr precision b) product

/-- Relates a form to zero. -/
def relate (relation : Relation) (l : Option Linear) : Except LinearError Constraint :=
  match l with
  | some l => .ok ⟨l, relation⟩
  | none => .error .overflow

/-- The constraint that two forms compare in a given way. The difference is taken in
both directions where the comparison points backwards. -/
def ofComparison (op : Comparison) (x y : Linear) : Except LinearError Constraint :=
  match x.sub? y with
  | none => .error .overflow
  | some d =>
    match op with
    | .eq => .ok ⟨d, .eq⟩
    | .ne => .ok ⟨d, .ne⟩
    | .lt => .ok ⟨d, .lt⟩
    | .le => .ok ⟨d, .le⟩
    | .gt => relate .lt (y.sub? x)
    | .ge => relate .le (y.sub? x)

/-- The constraint of a predicate. -/
def ofPredicate (precision : Nat) (p : Predicate) : Except LinearError Constraint :=
  match ofExpr precision p.lhs with
  | .error e => .error e
  | .ok x =>
    match ofExpr precision p.rhs with
    | .error e => .error e
    | .ok y => ofComparison p.op x y

/-- The constraints of predicates, or the first error. -/
def ofPredicates (precision : Nat) : List Predicate → Except LinearError (List Constraint)
  | [] => .ok []
  | p :: r =>
    match ofPredicate precision p with
    | .error e => .error e
    | .ok c =>
      match ofPredicates precision r with
      | .error e => .error e
      | .ok cs => .ok (c :: cs)

end Constraint
end LedgerGate

import LedgerGate.Verifier.Pattern

/-!
# The gate

Chooses, from features that are cheap to compute, which verifiers an intent has to
pass. It always chooses at least one.
-/

namespace LedgerGate

/-- What the gate looks at. -/
structure Features where
  /-- How many predicates across the transition mention a balance after it. -/
  balanceMutations : Nat
  /-- How many predicates are more than the assignment of a plain value. -/
  relationalPredicates : Nat
  /-- The size of all predicates. -/
  complexity : Nat
  anomalous : Bool
deriving DecidableEq, Repr

namespace Features

/-- Whether a predicate mentions a balance after the transition. -/
def mutates (p : Predicate) : Bool := p.occurrences.any BalanceName.isAfter

/-- Whether a predicate is more than the assignment of a plain value. -/
def isRelational (p : Predicate) : Bool :=
  p.op ≠ .eq || p.lhs.isCompound || p.rhs.isCompound || p.assignment?.isNone

/-- The data form of features. -/
def toJson (f : Features) : Json :=
  .object [("balance_mutations", .integer f.balanceMutations),
    ("relational_predicates", .integer f.relationalPredicates),
    ("complexity", .integer f.complexity), ("anomalous", .bool f.anomalous)]

end Features

/-- The settings of the gate. -/
structure Gate where
  complexityThreshold : Nat
  magnitudeLimit : Decimal
  precision : Nat

namespace Gate

/-- The gate of a configuration. -/
def ofConfig (c : Config) : Except Fault Gate :=
  match Decimal.parse c.pattern.magnitudeLimit Decimal.maxPrecision with
  | .error f => .error f
  | .ok limit => .ok ⟨c.pattern.complexityThreshold, limit, c.decimalPrecision⟩

/-- The features of an intent. -/
def features (g : Gate) (i : Intent) : Features where
  balanceMutations := (i.verify.filter Features.mutates).length
  relationalPredicates := i.guard.length + (i.verify.filter Features.isRelational).length
  complexity := (i.predicates.map Predicate.size).foldl (· + ·) 0
  anomalous := Pattern.looksAnomalous g.magnitudeLimit g.precision i

/-- Whether features call for a verifier. -/
def calls (g : Gate) (f : Features) : VerifierId → Bool
  | .conservation => 0 < f.balanceMutations
  | .logic => 0 < f.relationalPredicates
  | .pattern => f.anomalous || g.complexityThreshold < f.complexity

/-- The verifiers that features call for, or all if they call for none. -/
def select (g : Gate) (f : Features) : List VerifierId :=
  let called := VerifierId.all.filter (g.calls f)
  if called.isEmpty then VerifierId.all else called

end Gate
end LedgerGate

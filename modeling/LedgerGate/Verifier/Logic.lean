import LedgerGate.Solver.Check
import LedgerGate.Verifier.Context

/-!
# The logic verifier

Approves an intent when its predicates can be true together, given the balances of the
snapshot; rejects it when they cannot; and leaves open what the solver leaves open.
-/

namespace LedgerGate.Logic

/-- The constraint that a balance before the transition is that of the snapshot. Other
variables, and balances that come from outside, are not constrained. -/
def pin? (c : Context) (name : String) : Option (Except Constraint.LinearError Constraint) :=
  match BalanceName.beforeAccount? name with
  | none => none
  | some account =>
    if c.intent.isExternal name then none
    else
      some (Constraint.orOverflow
        ((Fraction.ofDecimal? (c.balances.of account)).bind (Constraint.pin? name)))

/-- The constraints for the balances among the given variables, or the first error. -/
def pins (c : Context) : List String → Except Constraint.LinearError (List Constraint)
  | [] => .ok []
  | name :: r =>
    match pin? c name with
    | none => pins c r
    | some (.error e) => .error e
    | some (.ok p) =>
      match pins c r with
      | .error e => .error e
      | .ok ps => .ok (p :: ps)

/-- The variables of all predicates, in order. -/
def mentioned (i : Intent) : List String :=
  distinctNames (i.predicates.flatMap Predicate.occurrences)

/-- The question for the solver: all predicates, and the balances that they mention. -/
def query (c : Context) : Except Constraint.LinearError (List Constraint) :=
  match Constraint.ofPredicates c.precision c.intent.predicates with
  | .error e => .error e
  | .ok cs =>
    match pins c (mentioned c.intent) with
    | .error e => .error e
    | .ok ps => .ok (cs ++ ps)

/-- The verdict that an answer of the solver stands for. -/
def ofAnswer : Solver.Answer → Verdict
  | .sat unknowns branches =>
    .approve .logic 1 ("satisfiable over " ++ toString unknowns ++ " variables (" ++
      toString branches ++ " branch(es) explored)")
  | .unsat r => .reject .logic 1 ("contradiction proven: " ++ r.message)
  | .unknown r => .uncertain .logic ("solver unknown: " ++ r.message)

/-- The work of the verifier, with a bound on the rows of the solver. -/
def work (maxConstraints : Nat) (c : Context) : Except Fault Verdict :=
  match query c with
  | .error (.malformed f) => .error (.invalid "literal" f.message)
  | .error .nonlinear => .ok (.uncertain .logic "solver unknown: non-linear term")
  | .error .overflow => .ok (.uncertain .logic "solver unknown: arithmetic overflow")
  | .ok cs =>
    .ok (ofAnswer (Solver.check ⟨c.watch, maxConstraints, Solver.Budget.usualDisequalities⟩ cs))

/-- The verdict of the verifier, with a bound on the rows of the solver. -/
def verify (maxConstraints : Nat) (c : Context) : Verdict :=
  .bounded .logic c (work maxConstraints c)

end LedgerGate.Logic

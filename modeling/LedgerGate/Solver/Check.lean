import LedgerGate.Solver.Elimination

/-!
# The solver

Decides constraints of all kinds. A disequality holds when its form is below zero or
above zero, so every way to choose a side for each of them is tried in turn, until one
has a solution.
-/

namespace LedgerGate.Solver

/-- What the solver answers. -/
inductive Answer where
  /-- There is a solution; the number of variables, and of choices tried. -/
  | sat (unknowns branches : Nat)
  | unsat (where' : Contradiction)
  | unknown (why : Obstacle)
deriving DecidableEq, Repr

/-- All ways to choose a side for each of `n` disequalities; the first one's side
changes fastest. -/
def sides : Nat → List (List Bool)
  | 0 => [[]]
  | n + 1 => (sides n).flatMap (fun s => [false :: s, true :: s])

/-- The inequalities that say that forms lie on the chosen sides of zero. -/
def takeSides : List Linear → List Bool → Option (List Constraint)
  | l :: r, s :: t =>
    let side := if s then l.scale? Fraction.minusOne else some l
    match side, takeSides r t with
    | some l', some cs => some (⟨l', .lt⟩ :: cs)
    | _, _ => none
  | _, _ => some []

/-- The disequalities that mention variables, or the news that one without variables
is false. -/
def splitDisequalities (cs : List Constraint) : Option (List Linear) :=
  let disequalities := cs.filter (fun c => c.relation = .ne)
  if disequalities.any (fun c => c.linear.isConstant && !c.holdsTrivially) then none
  else some ((disequalities.filter (fun c => !c.linear.isConstant)).map Constraint.linear)

/-- Tries choices of sides in turn. The first open choice is remembered. After it the work
looks up, and ends if it may not go on. -/
def tryBranches (b : Budget) (unknowns : Nat) (base : List Constraint) (forms : List Linear)
    (tried : Nat) (open? : Option Obstacle) (last : Contradiction) : List (List Bool) → Answer
  | [] =>
    match open? with
    | some o => .unknown o
    | none => .unsat last
  | s :: rest =>
    match takeSides forms s with
    | none => .unknown .splitOverflow
    | some cs =>
      match decideConjunction b (Moment.next ⟨tried, 0⟩) (base ++ cs) with
      | .sat => .sat unknowns (tried + 1)
      | .unsat c => tryBranches b unknowns base forms (tried + 1) open? c rest
      | .unknown o =>
        -- Another choice may still have a solution, unless no work is allowed any more.
        if b.watch.seen ⟨tried + 1, 0⟩ ≠ .running then .unknown o
        else
          tryBranches b unknowns base forms (tried + 1) (some (open?.getD o)) last rest

/-- Decides constraints. -/
def check (b : Budget) (cs : List Constraint) : Answer :=
  match splitDisequalities cs with
  | none => .unsat .disequality
  | some forms =>
    if b.maxDisequalities < forms.length then
      .unknown (.tooManyDisequalities forms.length b.maxDisequalities)
    else
      tryBranches b (variablesOf cs).length (cs.filter (fun c => c.relation ≠ .ne)) forms 0 none
        .noBranch (sides forms.length)

end LedgerGate.Solver

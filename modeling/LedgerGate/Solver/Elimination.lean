import LedgerGate.Solver.Constraint
import LedgerGate.Watch

/-!
# Elimination

Decides whether constraints without disequalities have a common solution in the
rationals. Equalities are solved for a variable and substituted away. Then variables
are eliminated one at a time from the inequalities: every upper bound of the variable
is combined with every lower bound, and what does not mention it is kept. Numbers
that leave their range, too many rows and a spent allowance leave the question open.
-/

namespace LedgerGate.Solver

/-- Why a question stays open. -/
inductive Obstacle where
  | cancelled
  | expired
  | overflow
  | splitOverflow
  | tooManyConstraints (count budget : Nat)
  | tooManyDisequalities (count budget : Nat)
deriving DecidableEq, Repr

/-- The wording of an obstacle. -/
def Obstacle.message : Obstacle → String
  | cancelled => "cancelled"
  | expired => "deadline exceeded"
  | overflow => "rational overflow"
  | splitOverflow => "overflow splitting disequality"
  | tooManyConstraints n b => toString n ++ " constraints exceed budget " ++ toString b
  | tooManyDisequalities n b =>
    toString n ++ " disequalities exceed case-split budget " ++ toString b

/-- Where a contradiction was found. -/
inductive Contradiction where
  | disequality
  | noBranch
  | equalities
  | inequalities
deriving DecidableEq, Repr

/-- The wording of a contradiction. -/
def Contradiction.message : Contradiction → String
  | disequality => "constant disequality is false"
  | noBranch => "no satisfying branch"
  | equalities => "equalities are contradictory"
  | inequalities => "inequalities are contradictory"

/-- What elimination found. -/
inductive Finding where
  | sat
  | unsat (where' : Contradiction)
  | unknown (why : Obstacle)
deriving DecidableEq, Repr

/-- What stops work that may not go on. -/
def Liveness.obstacle? : Liveness → Option Obstacle
  | running => none
  | cancelled => some .cancelled
  | expired => some .expired

/-! ## Equalities -/

/-- The form that a variable equals when a form, in which it has the given coefficient,
is zero. -/
def solveFor? (l : Linear) (name : String) (c : Fraction) : Option Linear :=
  match c.recip? with
  | none => none
  | some r =>
    match r.neg? with
    | none => none
    | some k => (l.erase name).scale? k

/-- Every constraint with a variable replaced. -/
def substituteAll (name : String) (replacement : Linear) :
    List Constraint → Option (List Constraint)
  | [] => some []
  | c :: r =>
    match c.linear.substitute? name replacement, substituteAll name replacement r with
    | some l, some t => some (⟨l, c.relation⟩ :: t)
    | _, _ => none

theorem length_substituteAll {name : String} {replacement : Linear} {cs t : List Constraint}
    (h : substituteAll name replacement cs = some t) : t.length = cs.length := by
  induction cs generalizing t with
  | nil => simp [substituteAll] at h; simp [← h]
  | cons c r ih =>
    simp only [substituteAll] at h
    split at h
    · next hr =>
      obtain rfl := Option.some.inj h
      simp [ih hr]
    · simp at h

/-- Solves equalities one after the other and substitutes each solution in the rest;
what remains are the inequalities. The work looks up before each equality, the first time
at the given moment. -/
def dropEqualities (w : Watch) (m : Moment) (inequalities : List Constraint) :
    List Constraint → Except Finding (List Constraint)
  | [] => .ok inequalities
  | e :: rest =>
    match (w.seen m).obstacle? with
    | some o => .error (.unknown o)
    | none =>
      match e.linear.coeffs.entries with
      | [] =>
        if e.holdsTrivially then dropEqualities w m.next inequalities rest
        else .error (.unsat .equalities)
      | (name, c) :: _ =>
        match solveFor? e.linear name c with
        | none => .error (.unknown .overflow)
        | some replacement =>
          match _h : substituteAll name replacement rest,
              substituteAll name replacement inequalities with
          | some rest', some inequalities' => dropEqualities w m.next inequalities' rest'
          | _, _ => .error (.unknown .overflow)
  termination_by equalities => equalities.length
  decreasing_by
    · simp
    · simp [length_substituteAll _h]

/-! ## Inequalities -/

/-- The rows that say something about variables, each divided by the size of its first
coefficient; a row without variables has to be true. -/
def liveRows : List Constraint → Except Finding (List Constraint)
  | [] => .ok []
  | c :: r =>
    if c.linear.isConstant then
      if c.holdsTrivially then liveRows r else .error (.unsat .inequalities)
    else
      match c.linear.normalize? with
      | none => .error (.unknown .overflow)
      | some l =>
        match liveRows r with
        | .error f => .error f
        | .ok t => .ok (⟨l, c.relation⟩ :: t)

/-- A list without the items that equal the one before them. -/
def dropRepeats : List Constraint → List Constraint
  | [] => []
  | [c] => [c]
  | c :: d :: r => if c = d then dropRepeats (d :: r) else c :: dropRepeats (d :: r)

/-- Rows in order, each of them once. -/
def sortRows (rows : List Constraint) : List Constraint :=
  dropRepeats (rows.mergeSort (fun a b => a.order b != .gt))

/-- How many combinations the elimination of a variable makes. -/
def cost (rows : List Constraint) (name : String) : Nat :=
  (rows.filter (fun c => 0 < (c.linear.coeff name).num)).length *
    (rows.filter (fun c => (c.linear.coeff name).num < 0)).length

/-- The first of the cheapest names. -/
def cheapest (cost : String → Nat) : List String → Option String
  | [] => none
  | n :: r =>
    match cheapest cost r with
    | none => some n
    | some m => if cost m < cost n then some m else some n

theorem cheapest_mem {cost : String → Nat} {names : List String} {m : String}
    (h : cheapest cost names = some m) : m ∈ names := by
  induction names generalizing m with
  | nil => simp [cheapest] at h
  | cons n r ih =>
    simp only [cheapest] at h
    split at h
    · simp_all
    · next m' hm =>
      split at h
      · obtain rfl := Option.some.inj h
        exact List.mem_cons_of_mem _ (ih hm)
      · simp_all

/-- Whether a variable occurs in a row. -/
def occurs (rows : List Constraint) (name : String) : Bool :=
  rows.any (fun c => c.linear.coeffs.contains name)

/-- The variable to eliminate next: of those that occur, the first of the cheapest. -/
def pickVariable (names : List String) (rows : List Constraint) : Option String :=
  cheapest (cost rows) (names.filter (occurs rows))

theorem pickVariable_mem {names : List String} {rows : List Constraint} {v : String}
    (h : pickVariable names rows = some v) : v ∈ names :=
  (List.mem_filter.mp (cheapest_mem h)).1

/-- The row that follows from an upper and a lower bound of a variable and no longer
mentions it. -/
def combine? (name : String) (upper lower : Constraint) : Option Constraint :=
  match (lower.linear.coeff name).abs? with
  | none => none
  | some k =>
    match upper.linear.scale? k, lower.linear.scale? (upper.linear.coeff name) with
    | some a, some b =>
      -- The coefficients of the variable are now opposite, and cancel.
      match a.add? b with
      | some l =>
        some ⟨l.erase name, if upper.relation = .lt ∨ lower.relation = .lt then .lt else .le⟩
      | none => none
    | _, _ => none

/-- One upper bound combined with every lower bound. -/
def combineWith (name : String) (upper : Constraint) : List Constraint → Option (List Constraint)
  | [] => some []
  | c :: r =>
    match combine? name upper c, combineWith name upper r with
    | some d, some t => some (d :: t)
    | _, _ => none

/-- Every upper bound combined with every lower bound. -/
def combineAll (name : String) (lower : List Constraint) :
    List Constraint → Option (List Constraint)
  | [] => some []
  | c :: r =>
    match combineWith name c lower, combineAll name lower r with
    | some s, some t => some (s ++ t)
    | _, _ => none

/-- The rows without a variable: those that do not mention it, and the combinations of
its bounds. -/
def eliminateVariable (name : String) (rows : List Constraint) : Option (List Constraint) :=
  let sign (c : Constraint) := (c.linear.coeff name).orderZero
  (combineAll name (rows.filter (sign · == .lt)) (rows.filter (sign · == .gt))).map
    (fun t => rows.filter (sign · == .eq) ++ t)

/-- What is allowed for one question. -/
structure Budget where
  watch : Watch
  maxConstraints : Nat
  maxDisequalities : Nat
deriving DecidableEq, Repr

/-- The usual bound on rows. -/
def Budget.usualConstraints : Nat := 4096

/-- The usual bound on disequalities. -/
def Budget.usualDisequalities : Nat := 8

/-- The usual bounds. -/
def Budget.usual (watch : Watch) : Budget := ⟨watch, usualConstraints, usualDisequalities⟩

/-- Decides inequalities by eliminating, one after the other, variables among the
given names, which are those not yet eliminated. The work looks up before each of them. -/
def dropInequalities (b : Budget) (m : Moment) (names : List String) (cs : List Constraint) :
    Finding :=
  match (b.watch.seen m).obstacle? with
  | some o => .unknown o
  | none =>
    match liveRows cs with
    | .error f => f
    | .ok rows =>
      let live := sortRows rows
      -- No row is left that a choice of values could break.
      if live.isEmpty then .sat
      else if b.maxConstraints < live.length then
        .unknown (.tooManyConstraints live.length b.maxConstraints)
      else
        match _h : pickVariable names live with
        | none => .sat
        | some v =>
          match eliminateVariable v live with
          | none => .unknown .overflow
          -- The number of rows may have grown; it is the names that run out.
          | some next => dropInequalities b m.next (names.erase v) next
  termination_by names.length
  decreasing_by
    have hv := pickVariable_mem _h
    have := List.length_pos_of_mem hv
    rw [List.length_erase_of_mem hv]
    omega

/-- The distinct variables of constraints, in order of name. -/
def variablesOf (cs : List Constraint) : List String :=
  distinctNames (cs.flatMap (fun c => c.linear.variableNames))

/-- Decides constraints without disequalities. Equalities are taken from the last to
the first. -/
def decideConjunction (b : Budget) (m : Moment) (cs : List Constraint) : Finding :=
  let equalities := cs.filter (fun c => c.relation = .eq)
  let inequalities := cs.filter (fun c => c.relation ≠ .eq)
  match dropEqualities b.watch m inequalities equalities.reverse with
  | .error f => f
  | .ok rest => dropInequalities b (m.later equalities.length) (variablesOf rest) rest

end LedgerGate.Solver

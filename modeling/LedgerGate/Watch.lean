/-!
# Looking up from work

A run is told to stop by a token that is cancelled or by a deadline that passes. Either happens
once and lasts, and the run notices it when it looks up from its work, which it does again and
again.
-/

namespace LedgerGate

/-- A moment at which a run looks up. -/
structure Moment where
  /-- How many choices were tried before. -/
  tried : Nat
  /-- How often the run has looked up since. -/
  looks : Nat
deriving DecidableEq, Repr

namespace Moment

/-- The first moment of a run. -/
def start : Moment := ⟨0, 0⟩

/-- The moment that is a number of looks later. -/
def later (m : Moment) (n : Nat) : Moment := { m with looks := m.looks + n }

/-- The moment of the next look. -/
def next (m : Moment) : Moment := m.later 1

instance : LE Moment where
  le m n := m.tried < n.tried ∨ m.tried = n.tried ∧ m.looks ≤ n.looks

instance (m n : Moment) : Decidable (m ≤ n) :=
  inferInstanceAs (Decidable (m.tried < n.tried ∨ m.tried = n.tried ∧ m.looks ≤ n.looks))

end Moment

/-- Something that happens once, if ever, and lasts. -/
structure Signal where
  /-- The first moment at which it shows. -/
  since : Option Moment
deriving DecidableEq, Repr

namespace Signal

/-- What does not happen. -/
def never : Signal := ⟨none⟩

/-- What has happened before the run begins. -/
def always : Signal := ⟨some .start⟩

/-- What has or has not happened before, and does not change during the run. -/
def ofBool (on : Bool) : Signal := if on then always else never

instance : Coe Bool Signal := ⟨ofBool⟩

/-- Whether a signal shows at a moment. -/
def isOn (s : Signal) (m : Moment) : Bool := s.since.any (· ≤ m)

/-- Whether a signal shows in the end. -/
def happens (s : Signal) : Bool := s.since.isSome

end Signal

/-- The time that a run is allowed. -/
structure Deadline where
  /-- When the time has passed. -/
  passed : Signal
  /-- How long the run took in the end, in milliseconds. -/
  elapsed : Nat
  /-- How long it may take, in milliseconds. -/
  limit : Nat
deriving DecidableEq, Repr

namespace Deadline

/-- A deadline that does not pass. -/
def never : Deadline := ⟨.never, 0, 0⟩

/-- A deadline that passes before the run begins, or does not pass. -/
def ofBool (passed : Bool) : Deadline := ⟨passed, 0, 0⟩

instance (passed : Prop) [Decidable passed] : CoeDep Prop passed Deadline :=
  ⟨ofBool (decide passed)⟩

end Deadline

namespace Solver

/-- Whether work may go on. -/
inductive Liveness where
  | running
  | cancelled
  | expired
deriving DecidableEq, Repr, Inhabited

end Solver

/-- What can tell a run to stop. -/
structure Watch where
  cancelled : Signal
  expired : Signal
deriving DecidableEq, Repr

namespace Watch

/-- Nothing tells the run to stop. -/
def running : Watch := ⟨.never, .never⟩

/-- The same at every moment. -/
def ofLiveness : Solver.Liveness → Watch
  | .running => running
  | .cancelled => ⟨.always, .never⟩
  | .expired => ⟨.never, .always⟩

instance : Coe Solver.Liveness Watch := ⟨ofLiveness⟩

/-- What the run sees when it looks up at a moment. -/
def seen (w : Watch) (m : Moment) : Solver.Liveness :=
  if w.cancelled.isOn m then .cancelled else if w.expired.isOn m then .expired else .running

@[simp] theorem seen_running (m : Moment) : running.seen m = .running := rfl

end Watch
end LedgerGate

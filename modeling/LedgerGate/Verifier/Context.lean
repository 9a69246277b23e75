import LedgerGate.Intent.Basic
import LedgerGate.Solver.Elimination
import LedgerGate.Verdict

/-!
# What verifiers see

A verifier looks at an intent, at a snapshot of the balances and, from time to time, at
whether it may still work. However it ends, by a verdict, a fault or a breakdown, the
outcome is a verdict; anything but a verdict of its own leaves the intent undecided.
-/

namespace LedgerGate

/-- The inputs of a verifier. -/
structure Context where
  intent : Intent
  balances : Balances
  /-- How many digits a literal may have. -/
  precision : Nat
  /-- When the work is called off. -/
  cancelled : Signal
  deadline : Deadline

namespace Context

/-- What can tell the verifier to stop. -/
def watch (c : Context) : Watch := ⟨c.cancelled, c.deadline.passed⟩

/-- The fault of working on when that is not allowed. -/
def ensureLive (c : Context) (m : Moment) : Except Fault Unit :=
  match (c.watch.seen m).obstacle? with
  | some o => .error (.interrupted o.message)
  | none => .ok ()

end Context

/-- How the work of a verifier ended. -/
inductive Ending where
  | verdict (v : Verdict)
  | fault (f : Fault)
  /-- A breakdown, with what it said if it said anything. -/
  | breakdown (message : Option String)

namespace Verdict

/-- The verdict of a verifier's work. -/
def ofEnding (verifier : VerifierId) : Ending → Verdict
  | .verdict v => v
  | .fault f => uncertain verifier ("internal fault: " ++ f.message)
  | .breakdown message =>
    uncertain verifier ("internal fault: panic: " ++ message.getD "unknown panic")

/-- A verdict that came before a deadline. A decision that comes after it does not count. -/
def ifInTime (verifier : VerifierId) (deadline : Deadline) (v : Verdict) : Verdict :=
  if deadline.passed.happens && v.decision != .uncertain then
    uncertain verifier ("timed out after " ++ toString deadline.elapsed ++ "ms (limit " ++
      toString deadline.limit ++ "ms)")
  else v

/-- The verdict of work in a context. -/
def bounded (verifier : VerifierId) (c : Context) (work : Except Fault Verdict) : Verdict :=
  ifInTime verifier c.deadline (ofEnding verifier (match work with
    | .ok v => .verdict v
    | .error f => .fault f))

end Verdict
end LedgerGate

import LedgerGate.Binary64.Reader

/-!
# Verdicts

What one verifier says about an intent: a decision with a confidence between zero
and one and a diagnostic.
-/

namespace LedgerGate

/-- The verifiers, in the order in which they are listed. -/
inductive VerifierId where
  | logic
  | conservation
  | pattern
deriving DecidableEq, Repr, Inhabited

namespace VerifierId

/-- All verifiers. -/
def all : List VerifierId := [logic, conservation, pattern]

/-- The name of a verifier. -/
def name : VerifierId → String
  | logic => "logic"
  | conservation => "conservation"
  | pattern => "pattern"

/-- The verifier of a name. -/
def ofName? (s : String) : Option VerifierId := all.find? (fun v => v.name = s)

end VerifierId

/-- A verifier's opinion. -/
inductive Decision where
  | approve
  | reject
  | uncertain
deriving DecidableEq, Repr, Inhabited

/-- The name of a decision in data. -/
def Decision.name : Decision → String
  | .approve => "APPROVE"
  | .reject => "REJECT"
  | .uncertain => "UNCERTAIN"

/-- One verifier's decision. -/
structure Verdict where
  verifier : VerifierId
  decision : Decision
  confidence : Float
  diagnostic : String
  /-- How long the verifier took, in nanoseconds. -/
  latency : Nat
deriving Inhabited

namespace Verdict

/-- A confidence brought into the range from zero to one; no number counts as zero. -/
def clamp (x : Float) : Float :=
  if x.isNaN then 0 else if x < 0 then 0 else if 1 < x then 1 else x

/-- A verdict with its confidence in range. -/
def make (verifier : VerifierId) (decision : Decision) (confidence : Float)
    (diagnostic : String) : Verdict :=
  ⟨verifier, decision, clamp confidence, diagnostic, 0⟩

/-- An approval. -/
def approve (verifier : VerifierId) (confidence : Float) (diagnostic : String) : Verdict :=
  make verifier .approve confidence diagnostic

/-- A rejection. -/
def reject (verifier : VerifierId) (confidence : Float) (diagnostic : String) : Verdict :=
  make verifier .reject confidence diagnostic

/-- No decision; there is no confidence in it. -/
def uncertain (verifier : VerifierId) (diagnostic : String) : Verdict :=
  make verifier .uncertain 0 diagnostic

end Verdict
end LedgerGate

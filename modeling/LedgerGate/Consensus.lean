import LedgerGate.Delta
import LedgerGate.Verdict

/-!
# Consensus

Puts verdicts together. An intent is approved only if every verifier that was called
approves it with enough confidence; one confident rejection, a missing verdict or any
doubt refuses it.
-/

namespace LedgerGate

/-- The decision on an intent, with what led to it. -/
structure Consensus where
  intentId : String
  intentHash : String
  approved : Bool
  activated : List VerifierId
  verdicts : List Verdict
  rationale : String
  /-- The changes to apply; only an approved intent has them. -/
  delta : Option Delta

namespace Consensus

/-- The confidences that decide. -/
structure Thresholds where
  /-- The least confidence of an approval that counts. -/
  approval : Float
  /-- The least confidence of a rejection that decides alone. -/
  rejection : Float

/-- The usual thresholds. -/
def Thresholds.usual : Thresholds := ⟨0.75, 0.9⟩

/-- Whether a verdict is a rejection that decides alone. -/
def isShortCircuit (t : Thresholds) (v : Verdict) : Bool :=
  v.decision == .reject && t.rejection ≤ v.confidence

/-- Whether a verdict is an approval that counts. -/
def approves (t : Thresholds) (v : Verdict) : Bool :=
  v.decision == .approve && t.approval ≤ v.confidence

/-- The first verdict of a verifier. -/
def verdictOf (verdicts : List Verdict) (id : VerifierId) : Option Verdict :=
  verdicts.find? (fun v => v.verifier = id)

/-- What keeps a called verifier from having approved, if anything does. -/
def blocker? (t : Thresholds) (verdicts : List Verdict) (id : VerifierId) : Option String :=
  match verdictOf verdicts id with
  | none => some (id.name ++ ": no verdict")
  | some v =>
    if approves t v then none
    else
      some (match v.decision with
        | .approve =>
          id.name ++ ": approval confidence " ++ Binary64.fixedTwo v.confidence ++ " below " ++
            Binary64.fixedTwo t.approval
        | .reject =>
          id.name ++ ": rejected with confidence " ++ Binary64.fixedTwo v.confidence ++ ": " ++
            v.diagnostic
        | .uncertain => id.name ++ ": uncertain: " ++ v.diagnostic)

/-- Whether verdicts approve, and why. -/
def decide (t : Thresholds) (activated : List VerifierId) (verdicts : List Verdict) :
    Bool × String :=
  match verdicts.find? (isShortCircuit t) with
  | some v =>
    (false, v.verifier.name ++ " rejected with confidence " ++ Binary64.fixedTwo v.confidence ++
      ": " ++ v.diagnostic)
  | none =>
    -- Nobody's approval is not unanimous approval.
    if activated.isEmpty then (false, "no verifier was activated")
    else
      let blockers := activated.filterMap (blocker? t verdicts)
      if blockers.isEmpty then
        (true, "unanimous approval by " ++ ", ".intercalate (activated.map VerifierId.name))
      else (false, "; ".intercalate blockers)

/-- The decision of verdicts for the verifiers that were called. -/
def aggregate (t : Thresholds) (activated : List VerifierId) (verdicts : List Verdict) :
    Consensus :=
  let d := decide t activated verdicts
  ⟨"", "", d.1, activated, verdicts, d.2, none⟩

/-- The decision on an intent that no verifier saw. -/
def refuse (reason : String) : Consensus := ⟨"", "", false, [], [], reason, none⟩

/-- An approval taken back. -/
def downgrade (c : Consensus) (reason : String) : Consensus :=
  { c with approved := false, rationale := c.rationale ++ "; " ++ reason, delta := none }

/-- The name of the decision in data. -/
def decisionName (c : Consensus) : String := if c.approved then "APPROVED" else "REJECTED"

end Consensus
end LedgerGate

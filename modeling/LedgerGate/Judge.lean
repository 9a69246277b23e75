import LedgerGate.Config.Basic
import LedgerGate.Consensus
import LedgerGate.Gate
import LedgerGate.Host
import LedgerGate.Verifier.Conservation
import LedgerGate.Verifier.Logic

/-!
# The judge

The gate chooses the verifiers of an intent. They work at the same time, and their verdicts are
gathered as they come and put together. An approved intent gets the exact delta that a commit will
apply. What cannot be decided is rejected.
-/

namespace LedgerGate

/-- The settings by which intents are decided. -/
structure Judge where
  gate : Gate
  pattern : Pattern.Settings
  thresholds : Consensus.Thresholds
  precision : Nat

namespace Judge

/-- The thresholds of a configuration. -/
def thresholdsOf (c : Config) : Consensus.Thresholds := ⟨c.approvalThreshold, c.rejectionThreshold⟩

/-- The judge of a configuration. -/
def ofConfig (c : Config) : Except Fault Judge :=
  match Gate.ofConfig c, Pattern.Settings.ofConfig c.pattern with
  | .ok gate, .ok pattern => .ok ⟨gate, pattern, thresholdsOf c, c.decimalPrecision⟩
  | .error f, _ => .error f
  | _, .error f => .error f

/-- The verdict of a verifier in a context. -/
def verdict (pattern : Pattern.Settings) (c : Context) : VerifierId → Verdict
  | .logic => Logic.verify Solver.Budget.usualConstraints c
  | .conservation => Conservation.verify c
  | .pattern => Pattern.verify pattern c

/-- What a snapshot of balances shows to the verifiers of an intent that are not told to stop. -/
def context (j : Judge) (i : Intent) (b : Balances) : Context :=
  ⟨i, b, j.precision, .never, .never⟩

/-- The verifiers that an intent has to pass. -/
def activated (j : Judge) (i : Intent) : List VerifierId := j.gate.select (j.gate.features i)

/-- The verdict that the task for a verifier ended with, if there is one. -/
def taskVerdict? (j : Judge) (i : Intent) (b : Balances) (id : VerifierId) : Fate → Option Verdict
  | .answered cancelled deadline =>
    some (verdict j.pattern { j.context i b with cancelled := cancelled, deadline := deadline } id)
  | .closed => some (.uncertain id "worker pool closed")
  | .failed why => some (.uncertain id ("internal fault: verifier task failed: " ++ why))
  | .overdue limit => some (.uncertain id ("timed out after " ++ toString limit ++ "ms"))
  | .lost => none

end Judge

/-- What has been gathered of the verdicts. -/
structure Gathering where
  verdicts : List Verdict
  /-- Whether the verifiers that were not heard were called off. -/
  cancelled : Bool

namespace Gathering

/-- What has been gathered when no task has ended. -/
def empty : Gathering := ⟨[], false⟩

/-- What has been gathered when one more task has ended. A rejection that decides alone calls the
other verifiers off. -/
def join (t : Consensus.Thresholds) (g : Gathering) : Option Verdict → Gathering
  | none => g
  | some v => ⟨g.verdicts ++ [v], g.cancelled || Consensus.isShortCircuit t v⟩

/-- Whether a verifier was not heard. -/
def misses (g : Gathering) (id : VerifierId) : Bool := g.verdicts.all (fun v => v.verifier ≠ id)

/-- The verdict in place of one that is missing. -/
def missing (g : Gathering) (id : VerifierId) : Verdict :=
  .uncertain id
    (if g.cancelled then "cancelled after short-circuit rejection" else "no verdict returned")

/-- What was gathered, with a verdict for a verifier in any case. -/
def fill (g : Gathering) (id : VerifierId) : Gathering :=
  if g.misses id then { g with verdicts := g.verdicts ++ [g.missing id] } else g

end Gathering

namespace Judge

/-- What has been gathered when tasks for the given verifiers have ended, in this order. -/
def joined (j : Judge) (course : Course) (i : Intent) (b : Balances) (ids : List VerifierId) :
    Gathering :=
  ids.foldl (fun g id => g.join j.thresholds (j.taskVerdict? i b id (course.fate id))) .empty

/-- The verdicts of the verifiers that an intent has to pass, in the order in which they came, and
then those in place of missing ones. -/
def gather (j : Judge) (course : Course) (i : Intent) (b : Balances) : List Verdict :=
  ((j.activated i).foldl Gathering.fill
    (j.joined course i b (course.arrivals (j.activated i)))).verdicts

/-- The verdicts of the verifiers that an intent has to pass, put together. -/
def poll (j : Judge) (course : Course) (i : Intent) (b : Balances) : Consensus :=
  Consensus.aggregate j.thresholds (j.activated i) (j.gather course i b)

/-- The exact delta of an intent, if it may be applied. -/
def deltaFor (j : Judge) (i : Intent) (b : Balances) : Except Delta.Failure Delta :=
  match Conservation.derive i b j.precision with
  | .error e => .error e
  | .ok d =>
    match d.conserves with
    | .ok () => .ok d
    | .error e => .error e

/-- The decision with the delta that it allows. -/
def withDelta (c : Consensus) : Except Delta.Failure Delta → Consensus
  | .ok d => { c with delta := some d }
  | .error e => c.downgrade ("no committable delta: " ++ e.message)

/-- The decision on an acceptable intent. -/
def decideValid (j : Judge) (course : Course) (i : Intent) (b : Balances) : Consensus :=
  let c := j.poll course i b
  if c.approved then withDelta c (j.deltaFor i b) else c

/-- A decision with the name and the digest of its intent. -/
def named (i : Intent) (c : Consensus) : Consensus :=
  { c with intentId := i.id, intentHash := i.contentHash }

/-- The decision on an intent, given the balances, and its features if it is acceptable. -/
def decide (j : Judge) (course : Course) (i : Intent) (b : Balances) :
    Consensus × Option Features :=
  match i.validate with
  | .error f => (named i (Consensus.refuse ("invalid intent: " ++ f.message)), none)
  | .ok () => (named i (j.decideValid course i b), some (j.gate.features i))

end Judge
end LedgerGate

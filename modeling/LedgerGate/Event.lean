import LedgerGate.Consensus
import LedgerGate.Gate
import LedgerGate.Log.File

/-!
# Events

One event records each verification: what was decided, by whom and why. Events are kept
in memory, or written to a file with one event a line.
-/

namespace LedgerGate

/-- The record of a verification. -/
structure Event where
  /-- Milliseconds since 1970. -/
  timestamp : UInt64
  decision : Consensus
  features : Option Features
  /-- How long the verification took, in microseconds. -/
  latency : Nat

namespace Event

/-- The data form of a verdict in an event; its latency is in microseconds. -/
def verdictJson (v : Verdict) : Json :=
  .object [("verifier", .string v.verifier.name), ("decision", .string v.decision.name),
    ("confidence", .float v.confidence), ("latency_us", .integer (v.latency / 1000 : Nat)),
    ("diagnostic", .string v.diagnostic)]

/-- The data form of an event. Features that were not computed are left out. -/
def toJson (e : Event) : Json :=
  let c := e.decision
  .object ([("event", .string "verification"), ("timestamp_ms", .integer e.timestamp.toNat),
    ("intent_id", .string c.intentId), ("intent_hash", .string c.intentHash),
    ("final_decision", .string c.decisionName),
    ("activated", Json.ofList (fun v => .string v.name) c.activated),
    ("verdicts", Json.ofList verdictJson c.verdicts), ("rationale", .string c.rationale)] ++
    (match e.features with
      | some f => [("features", f.toJson)]
      | none => []) ++
    [("total_latency_us", .integer e.latency)])

/-- The line of an event in a file. -/
def line (e : Event) : String := e.toJson.canonical ++ "\n"

end Event

/-- Where events go. -/
inductive Sink where
  | memory (events : List Event)
  | file (path : String) (id : Nat)

namespace Sink

/-- Opens the file of a path for events, and creates it if it is not there. -/
def openFile (dir path : String) : Job Sink := do
  let shown := Path.within dir path
  let id ← Job.perform shown (.openOrCreateAt path)
  return .file shown id

/-- Takes an event in. -/
def accept (s : Sink) (e : Event) : Job Sink :=
  match s with
  | memory events => return memory (events ++ [e])
  | file path id => do
    Job.perform path (.append id (Text.Utf8.encode e.line))
    return s

end Sink
end LedgerGate

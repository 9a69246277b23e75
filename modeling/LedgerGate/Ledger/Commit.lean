import LedgerGate.Consensus
import LedgerGate.Host
import LedgerGate.Ledger.Layer

/-!
# Commit

Applies the delta of an approved decision as a transaction. The beginning is logged, the
new state is written beside the state file and renamed over it, and the end is logged.
A decision that is not approved, whose delta does not conserve the total, or which was
made on other balances, is discarded without a trace.
-/

namespace LedgerGate

/-- What became of a transaction. -/
inductive Outcome where
  | committed
  | discarded
deriving DecidableEq, Repr, Inhabited

/-- The name of an outcome in data. -/
def Outcome.name : Outcome → String
  | committed => "COMMITTED"
  | discarded => "DISCARDED"

/-- Where a transaction can be interrupted. -/
inductive CrashPoint where
  /-- The beginning is in the log. -/
  | beginLogged
  /-- The new state exists in memory. -/
  | stateApplied
  /-- The new state is written beside the state file. -/
  | tempWritten
  /-- The new state is in the state file. -/
  | renamed
  /-- The end is in the log. -/
  | commitLogged
deriving DecidableEq, Repr

namespace CrashPoint

/-- All points, in order. -/
def all : List CrashPoint := [beginLogged, stateApplied, tempWritten, renamed, commitLogged]

/-- The name of a point in a diagnostic. -/
def name : CrashPoint → String
  | beginLogged => "BeginLogged"
  | stateApplied => "StateApplied"
  | tempWritten => "TempWritten"
  | renamed => "Renamed"
  | commitLogged => "CommitLogged"

/-- The point of a name. -/
def ofName? (s : String) : Option CrashPoint := all.find? (fun p => p.name = s)

/-- The wording of an interruption. -/
def message (p : CrashPoint) : String := "simulated crash after " ++ p.name

end CrashPoint

/-! ## What may be committed -/

/-- The longest transaction identifier. -/
def maxTxLength : Nat := 128

/-- The characters of a transaction identifier. -/
def isTxChar (c : Char) : Bool := c.isAlphanum || c == '-' || c == '_' || c == '.'

/-- Whether a text may identify a transaction. -/
def isTx (tx : String) : Bool :=
  tx ≠ "" && tx.utf8ByteSize ≤ maxTxLength && tx.toList.head? ≠ some '.' && tx.toList.all isTxChar

/-- The fault of a text that may not identify a transaction. -/
def checkTx (tx : String) : Except Fault Unit :=
  if isTx tx then .ok ()
  else
    .error (.invalid "tx_id" ("'" ++ tx ++ "' must be 1..=" ++ toString maxTxLength ++
      " characters of [A-Za-z0-9._-] not starting with '.'"))

/-- The delta of a decision that may be applied, if there is one. -/
def Consensus.committable? (c : Consensus) : Option Delta :=
  if c.approved && c.intentHash ≠ "" then
    match c.delta with
    | some d =>
      match d.conserves with
      | .ok () => some d
      | .error _ => none
    | none => none
  else none

namespace Layer

/-- The fault of asking a layer that serves no more. -/
def ensureServing (l : Layer) (tx : String) : Except Fault Unit :=
  match l.fault with
  | some reason =>
    .error (.invalidTransition tx
      ("commit layer halted (" ++ reason ++ "); restart recovery required"))
  | none => .ok ()

/-- Whether a delta was made on other balances than the current ones. -/
def isStale (l : Layer) (d : Delta) : Bool :=
  d.changes.entries.any (fun p => !(l.state.balances.of p.1).sameValue p.2.before)

/-- The first section of a commit: whether there is anything to apply. -/
def admission (l : Layer) (tx : String) (c : Consensus) : Except Fault (Option Delta) :=
  match checkTx tx with
  | .error f => .error f
  | .ok () =>
    match l.ensureServing tx with
    | .error f => .error f
    | .ok () => .ok c.committable?

/-- What a commit leaves: the layer, and the outcome or a fault. -/
abbrev Committed := Layer × Except Fault Outcome

/-- A layer that stopped at a crash point. -/
def crashed (l : Layer) (p : CrashPoint) : Committed :=
  (l.halt p.message, .error (.interrupted p.message))

/-- Logs that a transaction was rolled back before it reached the state file, after its
temporary file was removed as far as that is possible. The fault that led to it stays. -/
def abort (l : Layer) (begun : Log.Entry) (time : UInt64) (temp : Option String) (f : Fault) :
    Program Committed := do
  match temp with
  -- A file that cannot be removed now is removed by the next recovery.
  | some name => let _ ← (Job.attempt (.remove name)).run
  | none => pure ()
  let r ← (l.logStep (begun.ending .rollback time)).run
  match r with
  | .ok l' => return (l', .error f)
  | .error e => return (l.halt ("ROLLBACK could not be logged: " ++ e.message), .error f)

/-- Logs the end of a transaction whose state is in the state file. -/
def logEnd (l : Layer) (begun : Log.Entry) (time : UInt64) : Program Committed := do
  let r ← (l.logStep (begun.ending .commit time)).run
  match r with
  -- The state file is ahead of the log, which only a recovery can set right.
  | .error f => return (l.halt ("COMMIT could not be logged: " ++ f.message), .error f)
  | .ok l' => return (l', .ok .committed)

/-- Renames the written state over the state file, and logs the end. -/
def install (l : Layer) (begun : Log.Entry) (time : UInt64) (next : State)
    (crash : Option CrashPoint) : Program Committed := do
  let temp := Ledger.tempName begun.tx
  let r ← (Job.perform l.statePath (.rename temp Ledger.stateName)).run
  match r with
  | .error f => l.abort begun time (some temp) f
  | .ok () =>
    -- The state file has changed, so the state in memory follows before anything can fail.
    let l := l.follow next
    let r ← (Job.perform l.dir .syncNames).run
    match r with
    | .error f => return (l.halt ("state directory sync failed: " ++ f.message), .error f)
    | .ok () =>
      if crash = some .renamed then return l.crashed .renamed else l.logEnd begun time

/-- The section of a commit that no other one comes between: makes the new state, writes it, and
logs the end. -/
def applyBegun (l : Layer) (begun : Log.Entry) (time : UInt64) (intentHash : String) (d : Delta)
    (crash : Option CrashPoint) : Program Committed :=
  match l.state.applied begun.tx intentHash begun.payloadHash d with
  | .error f => l.abort begun time none f
  | .ok next =>
    if crash = some .stateApplied then return l.crashed .stateApplied
    else do
      let temp := Ledger.tempName begun.tx
      let r ← (Ledger.writeState l.dir temp next).run
      match r with
      | .error f => l.abort begun time (some temp) f
      | .ok () =>
        if crash = some .tempWritten then return l.crashed .tempWritten
        else l.install begun time next crash

/-- Compacts the log if enough transactions ended in it. -/
def compactIfDue (l : Layer) : Program Committed :=
  if l.compactionThreshold ≤ l.endedInLog then do
    let r ← l.compact.run
    match r with
    | .ok (l', _) => return (l', .ok .committed)
    | .error f => return (l, .error f)
  else return (l, .ok .committed)

/-- The last section of a commit, when the transaction has ended. -/
def finish (l : Layer) (crash : Option CrashPoint) : Program Committed :=
  if crash = some .commitLogged then
    return (l.halt CrashPoint.commitLogged.message, .ok .committed)
  else l.compactIfDue

/-- Logs the beginning of a transaction, and goes on. -/
def beginAndApply (l : Layer) (begun : Log.Entry) (time : UInt64) (intentHash : String) (d : Delta)
    (crash : Option CrashPoint) : Program Committed := do
  let r ← (l.logStep begun).run
  match r with
  | .error f => return (l, .error f)
  | .ok l' =>
    if crash = some .beginLogged then return l'.crashed .beginLogged
    else
      let (l'', outcome) ← l'.applyBegun begun time intentHash d crash
      match outcome with
      | .ok .committed => l''.finish crash
      | outcome => return (l'', outcome)

/-- Applies the delta of a decision as a transaction. The clock is looked at for its beginning, and
again for its end. With a crash point the commit stops there as if the program had died. -/
def commit (l : Layer) (tx : String) (c : Consensus) (host : Host)
    (crash : Option CrashPoint) : Program Committed :=
  match l.admission tx c with
  | .error f => return (l, .error f)
  | .ok none => return (l, .ok .discarded)
  | .ok (some d) =>
    if l.isStale d then return (l, .ok .discarded)
    else
      -- From here on the identifier is used, whatever comes of the transaction.
      l.beginAndApply ⟨.begin, tx, payloadHash tx c.intentHash d, host.clock 0⟩ (host.clock 1)
        c.intentHash d crash

end Layer
end LedgerGate

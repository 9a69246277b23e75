import LedgerGate.Ledger.State
import LedgerGate.Log.File

/-!
# The commit layer

A ledger lives in a directory with a state file and a log. A `Layer` is an open ledger:
the state in memory, the open log, and which transaction identifiers have been used.
Finished transactions are moved from the log to a second log, that of the retired, when
the log is compacted; their identifiers stay used.
-/

namespace LedgerGate

namespace Ledger

open Log (pathOf)

/-- The name of the state file. -/
def stateName : String := "state.json"

/-- The name of the log. -/
def logName : String := "wal.log"

/-- The name of the log of finished transactions. -/
def retiredName : String := "wal.retired.log"

/-- The name of the file in which a new state is written. -/
def tempName (label : String) : String := stateName ++ "." ++ label ++ ".tmp"

/-- Whether a name is that of a file left behind by an interrupted write. -/
def isTempName (name : String) : Bool :=
  ((stateName ++ ".").toList.isPrefixOf name.toList && ".tmp".toList.isSuffixOf name.toList) ||
    name = Log.File.replacementName logName

/-- Writes a state to a file and waits until it is on the disk. -/
def writeState (dir temp : String) (s : State) : Job Unit := Log.File.writeWhole dir temp s.bytes

/-- Puts a state in place of the state file: it is written beside it first. -/
def replaceState (dir label : String) (s : State) : Job Unit := do
  writeState dir (tempName label) s
  Job.perform (pathOf dir stateName) (.rename (tempName label) stateName)
  Job.perform dir .syncNames

/-- Reads the state file. -/
def loadState (dir : String) : Job State := do
  let path := pathOf dir stateName
  let r ← Job.attempt (.read stateName)
  match r with
  | .error .notFound => Job.fail (.stateMissing path)
  | .error e => Job.fail (.io path e.message)
  | .ok bytes => Job.ofExcept (State.load path bytes)

/-- Fails if one of the names is in use. -/
def refuseIfThere (dir : String) : List String → Job Unit
  | [] => return ()
  | name :: r => do
    let there : Bool ← Job.perform (pathOf dir name) (.isThere name)
    if there then Job.fail (.alreadyFounded (pathOf dir name)) else refuseIfThere dir r

/-- Founds a ledger in a directory that holds none. The directory is made if it is
missing, even when the ledger is not founded then. -/
def found (dir : String) (balances : Balances) : Job State := do
  Job.perform dir .ensureBase
  refuseIfThere dir [stateName, logName, retiredName]
  let s ← Job.ofExcept (State.genesis balances)
  let _ ← Log.File.create dir logName
  replaceState dir "genesis" s
  return s

end Ledger

/-- An open ledger. -/
structure Layer where
  dir : String
  compactionThreshold : Nat
  state : State
  /-- The current balances, kept apart for those who only read them. -/
  balances : Balances
  /-- Both copies of the balances are put in place together. -/
  agreed : balances = state.balances
  log : Log.File
  /-- The entries that began transactions which have not ended, in order. -/
  begun : List Log.Entry
  /-- The transactions that have ended. -/
  ended : List String
  /-- The entries of ended transactions that are not yet in the log of the retired. -/
  unretired : List Log.Entry
  /-- How many transactions ended in the log. -/
  endedInLog : Nat
  /-- Why the ledger serves no more, if it does not. -/
  fault : Option String

namespace Layer

/-- The proof of an account's balance. -/
def proof? (l : Layer) (account : String) : Option Merkle.Proof :=
  Merkle.Proof.build? Sha256.digest l.balances account

/-- The transactions that have begun and not ended. -/
def openTransactions (l : Layer) : List String := l.begun.map Log.Entry.tx

/-- Whether a transaction has begun and not ended. -/
def isBegun (l : Layer) (tx : String) : Bool := l.begun.any (fun e => e.tx = tx)

/-- Whether a transaction identifier has been used. -/
def isUsed (l : Layer) (tx : String) : Bool := l.isBegun tx || l.ended.contains tx

/-- The path of the state file. -/
def statePath (l : Layer) : String := Log.pathOf l.dir Ledger.stateName

/-- Stops serving. The first reason is kept. -/
def halt (l : Layer) (reason : String) : Layer :=
  { l with fault := some (l.fault.getD reason) }

/-- The layer when a new state is in the state file. -/
def follow (l : Layer) (next : State) : Layer :=
  { l with state := next, balances := next.balances, agreed := rfl }

/-- Moves the entries of ended transactions out of the log, into the log of the retired,
and leaves only those of open transactions. The answer is the number of entries dropped. -/
def compact (l : Layer) : Job (Layer × Nat) := do
  -- The log of the retired comes first: at no moment is an identifier in neither log.
  if !l.unretired.isEmpty then
    let retired ← Log.File.openOrCreate l.dir Ledger.retiredName
    let _ ← retired.appendAll l.unretired
  let log ← l.log.replaceAll l.begun
  -- Each transaction that ended has a beginning and an end in the log.
  return ({ l with log := log, unretired := [], endedInLog := 0 }, l.endedInLog * 2)

/-- The fault of a step that a transaction may not take now. -/
def refuseStep (l : Layer) (op : Log.Op) (tx : String) : Option Fault :=
  if op = .begin ∧ l.isUsed tx then some (.invalidTransition tx "transaction id already used")
  else if op.isTerminal ∧ ¬ l.isBegun tx then
    some (.invalidTransition tx (op.title ++ " without an open BEGIN"))
  else none

/-- The layer after an entry was logged. -/
def noted (l : Layer) (log : Log.File) (e : Log.Entry) : Layer :=
  if e.op = .begin then { l with log := log, begun := l.begun ++ [e] }
  else
    { l with
      log := log
      begun := l.begun.filter (fun b => b.tx ≠ e.tx)
      ended := e.tx :: l.ended
      unretired := l.unretired ++ [e]
      endedInLog := l.endedInLog + 1 }

/-- Logs a step of a transaction. -/
def logStep (l : Layer) (e : Log.Entry) : Job Layer :=
  match l.refuseStep e.op e.tx with
  | some f => Job.fail f
  | none => do
    let log ← l.log.append e
    return l.noted log e

end Layer
end LedgerGate

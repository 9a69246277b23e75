import LedgerGate.Text.Quoted

/-!
# Faults

Why an operation of the ledger did not give a result. A `Fault` is a cause with
the data that belongs to it; `Fault.message` is its one wording. A fault is fatal
when it says that the stored ledger cannot be trusted.
-/

namespace LedgerGate

/-- The cause of a failed operation. -/
inductive Fault where
  /-- A field of the input breaks a rule. -/
  | invalid (field message : String)
  /-- A decimal text would lose digits or not print back to itself. -/
  | inexact (input reason : String)
  /-- A result leaves the 128-bit range. -/
  | overflow (operation : String)
  /-- The input is larger than allowed. -/
  | limitExceeded (resource : String) (limit actual : Nat)
  /-- Work was cancelled, ran out of time or stopped at a simulated crash. -/
  | interrupted (reason : String)
  /-- A file operation failed. -/
  | io (path source : String)
  /-- There is no state file. -/
  | stateMissing (path : String)
  /-- The state file cannot be understood. -/
  | stateMalformed (path reason : String)
  /-- The state file does not match its own Merkle root. -/
  | rootMismatch (path expected computed : String)
  /-- A log holds a record that cannot be, at a byte offset. -/
  | logCorrupt (path : String) (offset : Nat) (reason raw : String)
  /-- A transaction may not take this step. -/
  | invalidTransition (tx reason : String)
  /-- The directory already holds a ledger. -/
  | alreadyFounded (path : String)
  /-- The configuration cannot be read. -/
  | badConfig (message : String)
  /-- A value has not the expected form. -/
  | badData (message : String)
  /-- A lock is unusable. -/
  | poisoned (resource : String)
deriving DecidableEq, Repr

namespace Fault

/-- The wording of a fault. -/
def message : Fault → String
  | invalid field text => "validation error on '" ++ field ++ "': " ++ text
  | inexact input reason => "precision loss parsing '" ++ input ++ "': " ++ reason
  | overflow operation => "arithmetic overflow in " ++ operation
  | limitExceeded resource limit actual =>
    resource ++ " limit exceeded: " ++ toString actual ++ " > " ++ toString limit
  | interrupted reason => "verification interrupted: " ++ reason
  | io path source => "i/o error on " ++ path ++ ": " ++ source
  | stateMissing path => "state missing: canonical ledger file " ++ path ++ " not found"
  | stateMalformed path reason => "state malformed in " ++ path ++ ": " ++ reason
  | rootMismatch path expected computed =>
    "merkle mismatch in " ++ path ++ ": expected " ++ expected ++ ", computed " ++ computed
  | logCorrupt path offset reason raw =>
    "corrupt WAL record in " ++ path ++ " at byte " ++ toString offset ++ ": " ++ reason ++
      " (raw: " ++ Text.quoted raw ++ ")"
  | invalidTransition tx reason => "invalid transition for tx '" ++ tx ++ "': " ++ reason
  | alreadyFounded path => "ledger already initialized at " ++ path
  | badConfig text => "configuration error: " ++ text
  | badData text => "serialization error: " ++ text
  | poisoned resource => "lock poisoned for resource: " ++ resource

/-- Whether the stored ledger cannot be trusted. -/
def isFatal : Fault → Bool
  | stateMissing _ | stateMalformed .. | rootMismatch .. | logCorrupt .. => true
  | _ => false

end Fault
end LedgerGate

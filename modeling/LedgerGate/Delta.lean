import LedgerGate.Decimal.Json
import LedgerGate.Json.Writer
import LedgerGate.Sha256

/-!
# Deltas

The exact effect of a transaction: for every account that it touches, the balance
before and the balance after.
-/

namespace LedgerGate

/-- The balance of an account before and after. -/
structure Change where
  before : Decimal
  after : Decimal
deriving DecidableEq, Repr

/-- The changes of a transaction, by account. -/
structure Delta where
  changes : Table Change
deriving DecidableEq, Repr

namespace Delta

/-- The delta that changes nothing. -/
def empty : Delta := ⟨Table.empty⟩

/-- Whether nothing changes. -/
def isEmpty (d : Delta) : Bool := d.changes.isEmpty

/-- The accounts that change, in order. -/
def accounts (d : Delta) : List String := d.changes.keys

/-- The total before. -/
def inputs (d : Delta) : Except Fault Decimal := Decimal.sum (d.changes.values.map Change.before)

/-- The total after. -/
def outputs (d : Delta) : Except Fault Decimal := Decimal.sum (d.changes.values.map Change.after)

/-- The data form of a delta. -/
def toJson (d : Delta) : Json :=
  .object [("changes", Json.ofTable
    (fun c => .object [("before", c.before.toJson), ("after", c.after.toJson)]) d.changes)]

/-- The change of a data value. -/
def changeOfJson? (v : Json) : Option Change :=
  match v.parts? ["before", "after"] with
  | some [some b, some a] =>
    match Decimal.ofJson? b, Decimal.ofJson? a with
    | some before, some after => some ⟨before, after⟩
    | _, _ => none
  | _ => none

/-- The digest that identifies a delta by its content. -/
def contentHash (d : Delta) : String := Sha256.textDigest d.toJson.canonical

/-- Why an intent has no delta that may be applied. -/
inductive Failure where
  /-- The intent breaks a rule of the ledger. -/
  | violation (reason : String)
  /-- The effect depends on something that is not known. -/
  | indeterminate (reason : String)
deriving DecidableEq, Repr

namespace Failure

/-- The reason without its kind. -/
def reason : Failure → String
  | violation r => r
  | indeterminate r => r

/-- The wording of a failure. -/
def message : Failure → String
  | violation r => "violation: " ++ r
  | indeterminate r => "indeterminate: " ++ r

end Failure

/-- A result, with a fault turned into a violation. -/
def orViolation {α : Type} : Except Fault α → Except Failure α
  | .ok a => .ok a
  | .error e => .error (.violation e.message)

/-- The first account that would end below zero. -/
def overdraft? (d : Delta) : Option (String × Change) :=
  d.changes.entries.find? (fun p => p.2.after.isNegative)

/-- Whether no account ends below zero and both totals are equal, or why not. -/
def conserves (d : Delta) : Except Failure Unit :=
  match d.overdraft? with
  | some (account, c) =>
    .error (.violation ("account '" ++ account ++ "' would fall to " ++ c.after.text ++
      " (was " ++ c.before.text ++ ")"))
  | none =>
    match orViolation d.inputs with
    | .error e => .error e
    | .ok i =>
      match orViolation d.outputs with
      | .error e => .error e
      | .ok o =>
        if i.sameValue o then .ok ()
        else
          .error (.violation ("value not conserved: inputs " ++ i.text ++ " != outputs " ++ o.text))

end Delta
end LedgerGate

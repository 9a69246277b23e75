import LedgerGate.Delta
import LedgerGate.Json.Reader
import LedgerGate.Merkle

/-!
# Ledger states

A state is a version of the balances with their Merkle root, the transaction that led to
it, and a record of how to take that transaction back. `State.applied` makes the next
state and `State.reverted` goes back.
-/

namespace LedgerGate

/-- What is needed to take the last transaction back. -/
structure Undo where
  tx : String
  intentHash : String
  priorVersion : Nat
  priorTx : Option String
  priorPayloadHash : Option String
  /-- The balance of every touched account before, none if there was no account. -/
  priorBalances : Table (Option Decimal)
deriving DecidableEq, Repr

/-- A version of the ledger. -/
structure State where
  version : Nat
  balances : Balances
  merkleRoot : String
  lastTx : Option String
  lastPayloadHash : Option String
  undo : Option Undo
deriving DecidableEq, Repr

/-- The text that identifies what a transaction does. -/
def payloadPreimage (tx intentHash : String) (d : Delta) : String :=
  (Json.object [("tx_id", .string tx), ("intent_hash", .string intentHash),
    ("changes", Json.ofTable (fun c => .object [("before", .string c.before.normalize.text),
      ("after", .string c.after.normalize.text)]) d.changes)]).canonical

/-- The digest that identifies what a transaction does; it is logged with each step. -/
def payloadHash (tx intentHash : String) (d : Delta) : String :=
  Sha256.textDigest (payloadPreimage tx intentHash d)

namespace State

/-- The largest version. -/
def maxVersion : Nat := Json.maxUInt64

/-- The root of balances. -/
def rootOf (b : Balances) : String := Merkle.rootText Sha256.digest b

/-- The root recomputed from the balances. -/
def computedRoot (s : State) : String := rootOf s.balances

/-- The first state of a ledger, with every balance in its normal form. -/
def genesis (b : Balances) : Except Fault State :=
  match b.entries.find? (fun p => p.2.isNegative) with
  | some (account, balance) =>
    .error (.invalid ("balances." ++ account)
      ("genesis balance " ++ balance.text ++ " is negative"))
  | none =>
    let balances := b.map Decimal.normalize
    .ok ⟨0, balances, rootOf balances, none, none, none⟩

/-- Balances with the changes of a delta written over them. -/
def writeChanges (b : Balances) (changes : List (String × Change)) : Balances :=
  changes.foldl (fun b p => b.insert p.1 p.2.after.normalize) b

/-- The state after a transaction. -/
def applied (s : State) (tx intentHash payload : String) (d : Delta) : Except Fault State :=
  if maxVersion ≤ s.version then .error (.overflow "ledger version")
  else
    let balances := writeChanges s.balances d.changes.entries
    .ok {
      version := s.version + 1
      balances := balances
      merkleRoot := rootOf balances
      lastTx := some tx
      lastPayloadHash := some payload
      undo := some {
        tx := tx
        intentHash := intentHash
        priorVersion := s.version
        priorTx := s.lastTx
        priorPayloadHash := s.lastPayloadHash
        priorBalances := Table.ofList
          (d.changes.entries.map (fun p => (p.1, s.balances.get? p.1))) } }

/-- Balances with prior ones put back. -/
def putBack (b : Balances) (prior : List (String × Option Decimal)) : Balances :=
  prior.foldl (fun b p =>
    match p.2 with
    | some v => b.insert p.1 v
    | none => b.erase p.1) b

/-- The state before the transaction that a record takes back. -/
def reverted (s : State) (u : Undo) : State :=
  let balances := putBack s.balances u.priorBalances.entries
  ⟨u.priorVersion, balances, rootOf balances, u.priorTx, u.priorPayloadHash, none⟩

/-- The delta that a record takes back. -/
def undoneDelta (s : State) (u : Undo) : Delta :=
  ⟨Table.ofList (u.priorBalances.entries.map
    (fun p => (p.1, ⟨p.2.getD 0, s.balances.of p.1⟩)))⟩

/-- Whether a record takes back the transaction that was logged with a payload digest. -/
def undoMatches (s : State) (u : Undo) (payload : String) : Bool :=
  payloadHash u.tx u.intentHash (s.undoneDelta u) = payload

end State

/-! ## Data form -/

/-- The data form of a record. -/
def Undo.toJson (u : Undo) : Json :=
  .object [("tx_id", .string u.tx), ("intent_hash", .string u.intentHash),
    ("prior_version", .integer u.priorVersion), ("prior_tx_id", Json.ofOption .string u.priorTx),
    ("prior_payload_hash", Json.ofOption .string u.priorPayloadHash),
    ("prior_balances", Json.ofTable (Json.ofOption Decimal.toJson) u.priorBalances)]

/-- A text that may be null or left out. -/
def optionalText (v : Option Json) : Option (Option String) :=
  Json.optional (Json.option? Json.string?) none v

/-- The record of a data value. -/
def Undo.ofJson? (v : Json) : Option Undo :=
  match v.parts? ["tx_id", "intent_hash", "prior_version", "prior_tx_id", "prior_payload_hash",
      "prior_balances"] with
  | some [some t, some i, some n, pt, pp, some b] => do
    let tx ← t.string?
    let intentHash ← i.string?
    let priorVersion ← n.nat? State.maxVersion
    let priorTx ← optionalText pt
    let priorPayloadHash ← optionalText pp
    let priorBalances ← b.table? (Json.option? Decimal.ofJson?)
    return ⟨tx, intentHash, priorVersion, priorTx, priorPayloadHash, priorBalances⟩
  | _ => none

namespace State

/-- The data form of a state. -/
def toJson (s : State) : Json :=
  .object [("version", .integer s.version), ("balances", s.balances.toJson),
    ("merkle_root", .string s.merkleRoot), ("last_tx_id", Json.ofOption .string s.lastTx),
    ("last_payload_hash", Json.ofOption .string s.lastPayloadHash),
    ("undo", Json.ofOption Undo.toJson s.undo)]

/-- The state of a data value. -/
def ofJson? (v : Json) : Option State :=
  match v.parts? ["version", "balances", "merkle_root", "last_tx_id", "last_payload_hash",
      "undo"] with
  | some [some n, some b, some r, t, p, u] => do
    let version ← n.nat? maxVersion
    let balances ← Balances.ofJson? b
    let merkleRoot ← r.string?
    let lastTx ← optionalText t
    let lastPayloadHash ← optionalText p
    let undo ← Json.optional (Json.option? Undo.ofJson?) none u
    return ⟨version, balances, merkleRoot, lastTx, lastPayloadHash, undo⟩
  | _ => none

/-- The text of a state. -/
def text (s : State) : String := s.toJson.pretty

/-- The bytes of a state file. -/
def bytes (s : State) : List UInt8 := Text.Utf8.encode s.text

/-- The state of the bytes of a state file. -/
def ofBytes? (bytes : List UInt8) : Option State := (Json.ofBytes? bytes).bind ofJson?

/-- The state that a state file holds, if it can be trusted. -/
def load (path : String) (bytes : List UInt8) : Except Fault State :=
  match ofBytes? bytes with
  | none => .error (.stateMalformed path "not a ledger state")
  | some s =>
    match s.balances.entries.find? (fun p => p.2.isNegative) with
    | some (account, balance) =>
      .error (.stateMalformed path
        ("account '" ++ account ++ "' holds negative balance " ++ balance.text))
    | none =>
      -- The stored root is compared as text, so it must have the usual spelling too.
      if s.computedRoot = s.merkleRoot then .ok s
      else .error (.rootMismatch path s.merkleRoot s.computedRoot)

end State
end LedgerGate

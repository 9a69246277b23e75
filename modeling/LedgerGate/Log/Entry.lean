import LedgerGate.Json.Reader
import LedgerGate.Json.Writer
import LedgerGate.Sha256

/-!
# Log entries

The write-ahead log has one line for each step of a transaction: the digest of the
entry's text, a tab, the text, and a line feed. A line is accepted only if the digest
is that of the text.
-/

namespace LedgerGate.Log

/-- The steps of a transaction that are logged. -/
inductive Op where
  | begin
  | commit
  | rollback
deriving DecidableEq, Repr, Inhabited

namespace Op

/-- Whether the step ends the transaction. -/
def isTerminal : Op → Bool
  | begin => false
  | _ => true

/-- The name of a step in a log. -/
def name : Op → String
  | begin => "BEGIN"
  | commit => "COMMIT"
  | rollback => "ROLLBACK"

/-- The name of a step in a diagnostic. -/
def title : Op → String
  | begin => "Begin"
  | commit => "Commit"
  | rollback => "Rollback"

/-- The step of a name. -/
def ofName? (s : String) : Option Op := [begin, commit, rollback].find? (fun o => o.name = s)

end Op

/-- One logged step of a transaction. -/
structure Entry where
  op : Op
  tx : String
  payloadHash : String
  /-- Milliseconds since 1970. -/
  timestamp : UInt64
deriving DecidableEq, Repr, Inhabited

namespace Entry

/-- The entry for the end of a transaction that an entry begins. -/
def ending (b : Entry) (op : Op) (time : UInt64) : Entry := ⟨op, b.tx, b.payloadHash, time⟩

section

variable (b : Entry) (op : Op) (time : UInt64)

@[simp] theorem op_ending : (b.ending op time).op = op := rfl

@[simp] theorem tx_ending : (b.ending op time).tx = b.tx := rfl

@[simp] theorem payloadHash_ending : (b.ending op time).payloadHash = b.payloadHash := rfl

end

/-- The data form of an entry. -/
def toJson (e : Entry) : Json :=
  .object [("op", .string e.op.name), ("tx_id", .string e.tx),
    ("payload_hash", .string e.payloadHash), ("timestamp", .integer e.timestamp.toNat)]

/-- The entry of a data value. -/
def ofJson? (v : Json) : Option Entry :=
  match v.parts? ["op", "tx_id", "payload_hash", "timestamp"] with
  | some [some o, some t, some p, some s] =>
    match o.bareChoice?.bind Op.ofName?, t.string?, p.string?, s.nat? Json.maxUInt64 with
    | some op, some tx, some payloadHash, some timestamp =>
      some ⟨op, tx, payloadHash, UInt64.ofNat timestamp⟩
    | _, _, _, _ => none
  | _ => none

/-- The text of an entry. -/
def text (e : Entry) : String := e.toJson.text

/-- A text with its digest, as a complete line. -/
def framed (text : String) : String := Sha256.textDigest text ++ "\t" ++ text ++ "\n"

/-- The line of an entry. -/
def line (e : Entry) : String := framed e.text

/-- The bytes of an entry's line. -/
def bytes (e : Entry) : List UInt8 := Text.Utf8.encode e.line

end Entry

/-- Why a line holds no entry. -/
inductive DecodeError where
  | noSeparator
  | wrongDigest
  | badRecord
  | emptyTx
deriving DecidableEq, Repr

/-- The wording of a refused line. -/
def DecodeError.message : DecodeError → String
  | noSeparator => "missing checksum separator"
  | wrongDigest => "checksum mismatch"
  | badRecord => "bad record"
  | emptyTx => "empty tx_id"

/-- The entry of a text. -/
def decodeText (cs : List Char) : Except DecodeError Entry :=
  match (Json.read? cs).bind Entry.ofJson? with
  | none => .error .badRecord
  | some e => if e.tx = "" then .error .emptyTx else .ok e

/-- The entry of a line without its line feed. -/
def decodeLine (line : String) : Except DecodeError Entry :=
  let cs := line.toList
  match cs.dropWhile (· ≠ '\t') with
  | [] => .error .noSeparator
  | _ :: text =>
    if String.ofList (cs.takeWhile (· ≠ '\t')) = Sha256.textDigest (String.ofList text) then
      decodeText text
    else .error .wrongDigest

end LedgerGate.Log

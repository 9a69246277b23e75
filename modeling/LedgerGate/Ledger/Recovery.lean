import LedgerGate.Host
import LedgerGate.Ledger.Layer

/-!
# Recovery

Opens the ledger of a directory. First everything is read and checked; a ledger that
cannot be trusted is left as it is. Then what an interruption left behind is repaired:
torn tails are cut off, transactions that began and did not end are taken back and logged
as rolled back, and files of interrupted writes are removed.
-/

namespace LedgerGate

namespace Recovery

open Log (Entry Record Replay pathOf)

/-- What recovery found and did. -/
structure Report where
  /-- The transactions that had begun and not ended, now rolled back. -/
  discarded : List String
  /-- Those of them that were taken back from the state. -/
  reverted : List String
  version : Nat
  merkleRoot : String
  entriesScanned : Nat
  tornTailCut : Bool
  /-- The files of interrupted writes that were removed. -/
  tempFilesRemoved : List String
deriving DecidableEq, Repr

/-- The data form of a report, with the version as text. -/
def Report.toJson (r : Report) : Json :=
  .object [("uncommitted_discarded", Json.ofList .string r.discarded),
    ("reverted", Json.ofList .string r.reverted), ("merkle_verified", .bool true),
    ("state_version", .string (toString r.version)), ("merkle_root", .string r.merkleRoot),
    ("wal_entries_scanned", .integer r.entriesScanned),
    ("torn_tail_truncated", .bool r.tornTailCut),
    ("orphaned_temp_files_removed", Json.ofList .string r.tempFilesRemoved)]

/-! ## Checks -/

/-- What the entries of a log amount to. -/
structure History where
  /-- Entries that began transactions which have not ended, in order. -/
  begun : List Entry
  /-- Transactions that have ended, the last first. -/
  ended : List String
  /-- Entries that ended transactions which are not retired, in order. -/
  unretired : List Entry
  endedInLog : Nat
deriving DecidableEq, Repr

/-- The history of an empty log. -/
def History.empty : History := ⟨[], [], [], 0⟩

/-- Whether a transaction has begun and not ended. -/
def History.isBegun (h : History) (tx : String) : Bool := h.begun.any (fun e => e.tx = tx)

/-- Adds an entry, or says why it cannot follow. -/
def History.add (retired : List String) (h : History) (e : Entry) : Except String History :=
  if e.op = .begin then
    if h.ended.contains e.tx || h.isBegun e.tx then
      .error ("duplicate BEGIN for '" ++ e.tx ++ "'")
    else .ok { h with begun := h.begun ++ [e] }
  else if h.isBegun e.tx then
    .ok {
      begun := h.begun.filter (fun b => b.tx ≠ e.tx)
      ended := e.tx :: h.ended
      unretired := if retired.contains e.tx then h.unretired else h.unretired ++ [e]
      endedInLog := h.endedInLog + 1 }
  else .error (e.op.title ++ " for '" ++ e.tx ++ "' without an open BEGIN")

/-- Adds the records of a log in order. -/
def History.addAll (path : String) (retired : List String) (h : History) :
    List Record → Except Fault History
  | [] => .ok h
  | r :: rest =>
    match h.add retired r.entry with
    | .error reason => .error (.logCorrupt path r.offset reason r.raw)
    | .ok h' => h'.addAll path retired rest

/-- The transactions of the log of the retired, all of which must have ended. -/
def retiredTransactions (path : String) : List Record → Except Fault (List String)
  | [] => .ok []
  | r :: rest =>
    if r.entry.op.isTerminal then
      match retiredTransactions path rest with
      | .error f => .error f
      | .ok txs => .ok (r.entry.tx :: txs)
    else .error (.logCorrupt path r.offset (r.entry.op.title ++ " record in retired log") r.raw)

/-- What recovery is going to do. -/
structure Plan where
  history : History
  retired : List String
  /-- The record by which the state is taken back, if its transaction did not end. -/
  undo : Option Undo
deriving DecidableEq, Repr

/-- The record by which the state has to be taken back. It must be the one of the
transaction that was logged. -/
def findUndo (dir : String) (s : State) (begun : List Entry) : Except Fault (Option Undo) :=
  match s.undo with
  | none => .ok none
  | some u =>
    match begun.find? (fun e => e.tx = u.tx) with
    -- The transaction has ended, and its record is of no more use.
    | none => .ok none
    | some e =>
      if s.undoMatches u e.payloadHash then .ok (some u)
      else
        .error (.stateMalformed (pathOf dir Ledger.stateName)
          ("undo record for '" ++ u.tx ++ "' does not match its BEGIN payload"))

/-- Checks the histories of both logs together with the state. -/
def planFor (dir : String) (s : State) (retired : List String) (records : List Record) :
    Except Fault Plan :=
  match History.empty.addAll (pathOf dir Ledger.logName) retired records with
  | .error f => .error f
  | .ok h =>
    -- A retired identifier whose end is still in the log is fine: compaction stopped between
    -- its two steps. One that is still open has been begun a second time.
    match h.begun.find? (fun e => retired.contains e.tx) with
    | some e =>
      .error (.logCorrupt (pathOf dir Ledger.logName) 0
        ("open BEGIN for retired transaction '" ++ e.tx ++ "'") "")
    | none =>
      match findUndo dir s h.begun with
      | .error f => .error f
      | .ok u => .ok ⟨h, retired, u⟩

/-- What was read from the files. -/
structure Contents where
  state : State
  retired : Option Replay
  log : Replay

/-- Reads the log of the retired, if there is one, and checks that all in it have ended. -/
def readRetired (dir : String) : Job (Option Replay × List String) := do
  let path := pathOf dir Ledger.retiredName
  let there : Bool ← Job.perform path (.isThere Ledger.retiredName)
  if there then
    let r ← Log.replayFile dir Ledger.retiredName
    let txs ← Job.ofExcept (retiredTransactions path r.records)
    return (some r, txs)
  else return (none, [])

/-- Reads and checks everything. Nothing is written. -/
def examine (dir : String) : Job (Contents × Plan) := do
  let s ← Ledger.loadState dir
  let path := pathOf dir Ledger.logName
  let there : Bool ← Job.perform path (.isThere Ledger.logName)
  if !there then Job.fail (.logCorrupt path 0 "write-ahead log missing" "")
  else
    let (retired, txs) ← readRetired dir
    let log ← Log.replayFile dir Ledger.logName
    let plan ← Job.ofExcept (planFor dir s txs log.records)
    return (⟨s, retired, log⟩, plan)

/-! ## Repairs -/

/-- Cuts a torn tail off. -/
def cutTail (dir name : String) (tornAt : Option Nat) : Job Unit :=
  match tornAt with
  | some offset => Log.truncate dir name offset
  | none => return ()

/-- What has been repaired so far. -/
structure Repairs where
  state : State
  log : Log.File
  unretired : List Entry
  reverted : List String

/-- Takes a transaction that did not end back from the state, if it reached the state. -/
def takeBack (dir : String) (undo : Option Undo) (tx : String) (r : Repairs) : Job Repairs :=
  match undo with
  | none => return r
  | some u =>
    if u.tx = tx then do
      let s := r.state.reverted u
      Ledger.replaceState dir "recovery" s
      return { r with state := s, reverted := r.reverted ++ [tx] }
    else return r

theorem takeBack_of_ne {dir tx : String} {undo : Option Undo} {r : Repairs}
    (h : ∀ u, undo = some u → u.tx ≠ tx) : takeBack dir undo tx r = pure r := by
  unfold takeBack
  split
  · rfl
  · next u => rw [if_neg (h u rfl)]

/-- Rolls transactions back that did not end, in order. The clock is looked at for each. -/
def rollBack (dir : String) (clock : Nat → UInt64) (undo : Option Undo) (r : Repairs) :
    List Entry → Job Repairs
  | [] => return r
  | e :: rest => do
    -- The state first: once the end is logged, the transaction is not looked at again.
    let r ← takeBack dir undo e.tx r
    let entry := e.ending .rollback (clock 0)
    let log ← r.log.append entry
    let r := { r with log := log, unretired := r.unretired ++ [entry] }
    rollBack dir (fun n => clock (n + 1)) undo r rest

/-- Removes files, in order. -/
def removeFiles (dir : String) : List String → Job Unit
  | [] => return ()
  | name :: rest => do
    Job.perform (pathOf dir name) (.remove name)
    removeFiles dir rest

/-- Removes the files of interrupted writes as the host lists them. The answer is their names in
order. -/
def removeTempFiles (dir : String) (host : Host) : Job (List String) := do
  let names : List String ← Job.perform dir .names
  removeFiles dir ((host.listing names).filter Ledger.isTempName)
  let temps := names.filter Ledger.isTempName
  if !temps.isEmpty then Job.perform dir .syncNames
  return temps

/-- Repairs what an interruption left behind. -/
def repair (dir : String) (threshold : Nat) (host : Host) (c : Contents) (p : Plan) :
    Job (Layer × Report) := do
  -- Tails first: what is appended behind a torn tail would become part of it.
  cutTail dir Ledger.logName c.log.tornAt
  cutTail dir Ledger.retiredName (c.retired.bind Replay.tornAt)
  let log ← Log.File.openLog dir Ledger.logName
  let r ← rollBack dir host.clock p.undo ⟨c.state, log, p.history.unretired, []⟩ p.history.begun
  let temps ← removeTempFiles dir host
  let discarded := p.history.begun.map Entry.tx
  let layer : Layer := {
    dir := dir
    compactionThreshold := threshold
    state := r.state
    balances := r.state.balances
    agreed := rfl
    log := r.log
    begun := []
    ended := discarded ++ p.history.ended ++ p.retired
    unretired := r.unretired
    endedInLog := p.history.endedInLog + discarded.length
    fault := none }
  let report : Report := {
    discarded := discarded
    reverted := r.reverted
    version := r.state.version
    merkleRoot := r.state.merkleRoot
    entriesScanned := c.log.records.length
    tornTailCut := c.log.tornAt.isSome
    tempFilesRemoved := temps }
  if threshold ≤ layer.endedInLog then
    let (compacted, _) ← layer.compact
    return (compacted, report)
  else return (layer, report)

end Recovery

/-- Opens the ledger of a directory. -/
def Ledger.recover (dir : String) (threshold : Nat) (host : Host) :
    Job (Layer × Recovery.Report) := do
  let (c, p) ← Recovery.examine dir
  Recovery.repair dir threshold host c p

end LedgerGate

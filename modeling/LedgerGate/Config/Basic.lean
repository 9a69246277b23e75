import LedgerGate.Decimal.Text
import LedgerGate.Json.Basic
import LedgerGate.Verdict

/-!
# Configuration

The settings of a ledger and its verifiers, their usual values, and what makes them
acceptable. Settings are read from data, or from a settings text, in which everything
may be left out.
-/

namespace LedgerGate

/-- Settings of the pattern verifier and of the gate. -/
structure PatternConfig where
  /-- Literals of at least this size are suspicious. -/
  magnitudeLimit : String
  /-- An intent with more nodes than this is complex. -/
  complexityThreshold : Nat
  /-- The confidence in an intent without findings. -/
  cleanConfidence : Float
  /-- The score from which an intent is rejected. -/
  rejectScore : Float

/-- Settings of a ledger. -/
structure Config where
  logicTimeout : Nat
  conservationTimeout : Nat
  patternTimeout : Nat
  /-- The least confidence of an approval that counts. -/
  approvalThreshold : Float
  /-- The least confidence of a rejection that decides alone. -/
  rejectionThreshold : Float
  dataDir : String
  /-- How many digits a literal may have. -/
  decimalPrecision : Nat
  /-- How many verifiers may work at once; zero stands for one on each processor. -/
  maxWorkers : Nat
  /-- How many finished transactions the log holds before it is compacted. -/
  compactionThreshold : Nat
  eventLog : Option String
  pattern : PatternConfig

namespace PatternConfig

/-- The usual settings. -/
def usual : PatternConfig := ⟨"1000000000000", 48, 0.9, 0.5⟩

/-- The names of the settings in data, in order. -/
def names : List String :=
  ["magnitude_limit", "complexity_threshold", "clean_confidence", "reject_score"]

/-- The settings of the parts of a record. -/
def ofParts? : List (Option Json) → Option PatternConfig
  | [m, c, k, r] => do
    let magnitudeLimit ← Json.optional Json.string? usual.magnitudeLimit m
    let complexityThreshold ← Json.optional (Json.nat? Json.maxUInt64) usual.complexityThreshold c
    let cleanConfidence ← Json.optional Json.float? usual.cleanConfidence k
    let rejectScore ← Json.optional Json.float? usual.rejectScore r
    return ⟨magnitudeLimit, complexityThreshold, cleanConfidence, rejectScore⟩
  | _ => none

/-- The settings of a data value. -/
def ofJson? (v : Json) : Option PatternConfig := (v.parts? names).bind ofParts?

/-- The settings of a value of a settings text, where a list may go on after them. -/
def ofToml? (v : Json) : Option PatternConfig := (v.leadingParts? names).bind ofParts?

end PatternConfig

namespace Config

/-- The usual settings. -/
def usual : Config :=
  { logicTimeout := 2000
    conservationTimeout := 500
    patternTimeout := 250
    approvalThreshold := 0.75
    rejectionThreshold := 0.9
    dataDir := "ledger"
    decimalPrecision := Decimal.defaultPrecision
    maxWorkers := 0
    compactionThreshold := 50000
    eventLog := none
    pattern := PatternConfig.usual }

instance : Inhabited Config := ⟨usual⟩

/-- The names of the settings in data, in order. -/
def names : List String :=
  ["logic_timeout_ms", "conservation_timeout_ms", "pattern_timeout_ms", "approval_threshold",
    "rejection_threshold", "data_dir", "decimal_precision", "max_workers",
    "wal_compaction_threshold", "event_log", "pattern"]

/-- The settings of the parts of a record, with a reader for those of the pattern
verifier. -/
def ofParts? (readPattern : Json → Option PatternConfig) : List (Option Json) → Option Config
  | [l, c, p, a, r, d, n, w, t, e, s] => do
    let word := Json.nat? Json.maxUInt64
    let logicTimeout ← Json.optional word usual.logicTimeout l
    let conservationTimeout ← Json.optional word usual.conservationTimeout c
    let patternTimeout ← Json.optional word usual.patternTimeout p
    let approvalThreshold ← Json.optional Json.float? usual.approvalThreshold a
    let rejectionThreshold ← Json.optional Json.float? usual.rejectionThreshold r
    let dataDir ← Json.optional Json.string? usual.dataDir d
    let decimalPrecision ← Json.optional (Json.nat? Json.maxUInt32) usual.decimalPrecision n
    let maxWorkers ← Json.optional word usual.maxWorkers w
    let compactionThreshold ← Json.optional word usual.compactionThreshold t
    let eventLog ← Json.optional (Json.option? Json.string?) usual.eventLog e
    let pattern ← Json.optional readPattern usual.pattern s
    return ⟨logicTimeout, conservationTimeout, patternTimeout, approvalThreshold,
      rejectionThreshold, dataDir, decimalPrecision, maxWorkers, compactionThreshold, eventLog,
      pattern⟩
  | _ => none

/-- The settings of a data value. -/
def ofJson? (v : Json) : Option Config :=
  (v.parts? names).bind (ofParts? PatternConfig.ofJson?)

/-- The settings of the value of a settings text. -/
def ofToml? (v : Json) : Option Config :=
  (v.parts? names).bind (ofParts? PatternConfig.ofToml?)

/-- The time that a verifier may take, in milliseconds. -/
def timeout (c : Config) : VerifierId → Nat
  | .logic => c.logicTimeout
  | .conservation => c.conservationTimeout
  | .pattern => c.patternTimeout

/-- Whether a number lies between zero and one. -/
def inUnitRange (x : Float) : Bool := 0 ≤ x && x ≤ 1

/-- The first of the named numbers that does not lie between zero and one. -/
def checkUnits : List (String × Float) → Except Fault Unit
  | [] => .ok ()
  | (name, x) :: r =>
    if inUnitRange x then checkUnits r
    else .error (.invalid name ("must be within [0.0, 1.0], got " ++ Binary64.plain x))

/-- The first verifier that is given no time. -/
def checkTimeouts (c : Config) : List VerifierId → Except Fault Unit
  | [] => .ok ()
  | v :: r =>
    if c.timeout v = 0 then .error (.invalid (v.name ++ "_timeout_ms") "timeout must be positive")
    else checkTimeouts c r

/-- The settings that must lie between zero and one. -/
def units (c : Config) : List (String × Float) :=
  [("approval_threshold", c.approvalThreshold), ("rejection_threshold", c.rejectionThreshold),
    ("pattern.clean_confidence", c.pattern.cleanConfidence),
    ("pattern.reject_score", c.pattern.rejectScore)]

/-- Whether settings are acceptable, or why not. -/
def validate (c : Config) : Except Fault Unit := do
  checkUnits c.units
  if c.decimalPrecision = 0 ∨ Decimal.maxPrecision < c.decimalPrecision then
    .error (.invalid "decimal_precision" ("must be within 1..=" ++ toString Decimal.maxPrecision))
  else
    checkTimeouts c VerifierId.all
    if c.compactionThreshold = 0 then
      .error (.invalid "wal_compaction_threshold" "must be positive")
    else if c.dataDir = "" then .error (.invalid "data_dir" "must not be empty")
    else
      match Decimal.parse c.pattern.magnitudeLimit Decimal.maxPrecision with
      | .ok _ => .ok ()
      | .error f => .error f

end Config
end LedgerGate

import LedgerGate.Config.Basic
import LedgerGate.Log.File
import LedgerGate.Text.Blank
import LedgerGate.Toml.Document

/-!
# Where settings come from

Settings are the usual ones, overridden by a settings text, overridden by variables of
the environment.
-/

namespace LedgerGate.Config

/-- What the names of all environment variables begin with. -/
def envMark : String := "INTENTGUARD_"

/-- The settings of a text, which need not be acceptable. -/
def ofToml (s : String) : Except Fault Config :=
  match (Toml.read? s).bind ofToml? with
  | some c => .ok c
  | none => .error (.badConfig "not a settings text")

/-- The acceptable settings of a text. -/
def parse (s : String) : Except Fault Config :=
  match ofToml s with
  | .error f => .error f
  | .ok c =>
    match c.validate with
    | .ok () => .ok c
    | .error f => .error f

/-- The whole number that a text spells, up to a bound. A plus sign may stand in front. -/
def readNat? (most : Nat) (cs : List Char) : Option Nat :=
  let digits := match cs with
    | '+' :: r => r
    | r => r
  if digits.isEmpty || !digits.all Char.isDigit then none
  else
    let n := Nat.ofDigitChars 10 digits 0
    if n ≤ most then some n else none

/-- A setting that a whole number gives. -/
def natSetting (most : Nat) (set : Config → Nat → Config) (s : String) (c : Config) :
    Option Config :=
  (readNat? most (Text.trimBlanks s.toList)).map (set c)

/-- A setting that a floating-point number gives. -/
def floatSetting (set : Config → Float → Config) (s : String) (c : Config) : Option Config :=
  (Binary64.read? (Text.trimBlanks s.toList)).map (set c)

/-- A setting that is the text itself. -/
def textSetting (set : Config → String → Config) (s : String) (c : Config) : Option Config :=
  some (set c s)

/-- The settings that variables of the environment can make, in the order in which they are
looked up. -/
def settings : List (String × (String → Config → Option Config)) :=
  let word := natSetting Json.maxUInt64
  [("LOGIC_TIMEOUT_MS", word (fun c n => { c with logicTimeout := n })),
    ("CONSERVATION_TIMEOUT_MS", word (fun c n => { c with conservationTimeout := n })),
    ("PATTERN_TIMEOUT_MS", word (fun c n => { c with patternTimeout := n })),
    ("APPROVAL_THRESHOLD", floatSetting (fun c x => { c with approvalThreshold := x })),
    ("REJECTION_THRESHOLD", floatSetting (fun c x => { c with rejectionThreshold := x })),
    ("DATA_DIR", textSetting (fun c s => { c with dataDir := s })),
    ("DECIMAL_PRECISION", natSetting Json.maxUInt32 (fun c n => { c with decimalPrecision := n })),
    ("MAX_WORKERS", word (fun c n => { c with maxWorkers := n })),
    ("WAL_COMPACTION_THRESHOLD", word (fun c n => { c with compactionThreshold := n })),
    ("EVENT_LOG", textSetting (fun c s => { c with eventLog := some s }))]

/-- Sets what variables say, in order. At the first that cannot be read the rest is left
as it is. -/
def applySettings (lookup : String → Option String) (c : Config) :
    List (String × (String → Config → Option Config)) → Config × Except Fault Unit
  | [] => (c, .ok ())
  | (name, set) :: r =>
    match lookup (envMark ++ name) with
    | none => applySettings lookup c r
    | some s =>
      match set s c with
      | some c' => applySettings lookup c' r
      | none => (c, .error (.badConfig (envMark ++ name ++ ": cannot parse '" ++ s ++ "'")))

/-- Sets what the environment says. -/
def applyEnv (lookup : String → Option String) (c : Config) : Config × Except Fault Unit :=
  applySettings lookup c settings

/-- The settings of a file, if one is named, and of the environment. -/
def load (dir : String) (file : Option String) (lookup : String → Option String) : Job Config := do
  let c ← match file with
    | none => pure usual
    | some name => do
      let path := Log.pathOf dir name
      let bytes : List UInt8 ← Job.perform path (.read name)
      match Text.Utf8.decode? bytes with
      | none => Job.fail (.io path "stream did not contain valid UTF-8")
      | some s => Job.ofExcept (ofToml s)
  let (c, r) := applyEnv lookup c
  Job.ofExcept r
  Job.ofExcept c.validate
  return c

end LedgerGate.Config

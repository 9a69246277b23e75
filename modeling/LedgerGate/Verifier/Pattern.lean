import LedgerGate.Config.Basic
import LedgerGate.Verifier.Context

/-!
# The pattern verifier

Looks for shapes that exploits have: unbounded products and inputs, extreme numbers,
balances defined by themselves, and private values that move balances. The weights of
the findings add up to a score, which lowers the confidence and from a limit on rejects.
-/

namespace LedgerGate.Pattern

/-- A shape that the verifier looks for. -/
inductive Shape where
  /-- A product of variables, or an unbounded value from outside that moves a balance. -/
  | unboundedArithmetic
  /-- A literal of extreme size, or a large factor. -/
  | magnitudeJump
  /-- A balance after the transition in terms of itself. -/
  | selfReference
  /-- A private value that moves a balance. -/
  | secretLeak
deriving DecidableEq, Repr

namespace Shape

/-- How much a finding of this shape adds to the score. -/
def weight : Shape → Float
  | unboundedArithmetic => 0.4
  | magnitudeJump => 0.3
  | selfReference => 0.6
  | secretLeak => 0.5

/-- The name of a shape in data. -/
def name : Shape → String
  | unboundedArithmetic => "unbounded_arithmetic"
  | magnitudeJump => "magnitude_jump"
  | selfReference => "self_referential_mutation"
  | secretLeak => "secret_leak"

end Shape

/-- A shape that was found, and where. -/
structure Finding where
  shape : Shape
  detail : String
deriving DecidableEq, Repr

/-- A factor of at least this size amplifies. -/
def amplification : Decimal := Decimal.ofInt64 100

/-- Whether a literal is at least as large as a limit, sign apart. -/
def isAtLeast (limit : Decimal) (precision : Nat) (text : String) : Bool :=
  match Decimal.parse text precision with
  | .error _ => false
  | .ok d =>
    match d.abs with
    | .error _ => false
    | .ok size => size.order limit != .lt

/-- Whether two terms with variables are multiplied. -/
def hasVariableProduct : Expr → Bool
  | .lit _ | .var _ => false
  | .neg a => hasVariableProduct a
  | .add a b | .sub a b => hasVariableProduct a || hasVariableProduct b
  | .mul a b =>
    (!a.occurrences.isEmpty && !b.occurrences.isEmpty) || hasVariableProduct a ||
      hasVariableProduct b

/-- The text of a term that is an amplifying literal. -/
def amplifier (precision : Nat) : Expr → List String
  | .lit text => if isAtLeast amplification precision text then [text] else []
  | _ => []

/-- The amplifying factors of a term. -/
def amplifiers (precision : Nat) : Expr → List String
  | .lit _ | .var _ => []
  | .neg a => amplifiers precision a
  | .add a b | .sub a b => amplifiers precision a ++ amplifiers precision b
  | .mul a b =>
    amplifier precision a ++ amplifier precision b ++ amplifiers precision a ++
      amplifiers precision b

/-- Whether a name ends in the mark of a value after the transition. -/
def isPrimed (name : String) : Bool := name.toList.getLast? = some '\''

/-- The marked variables that are on both sides of a predicate, in order. -/
def sharedPrimed (p : Predicate) : List String :=
  p.lhs.variableNames.filter (fun n => p.rhs.mentions n && isPrimed n)

/-- The variables that a guard bounds. -/
def bounded (i : Intent) : List String :=
  (i.guard.filter (fun p => p.op ≠ .ne)).flatMap Predicate.occurrences

/-- The findings in one side of a predicate. -/
def scanSide (precision : Nat) (e : Expr) : List Finding :=
  (if hasVariableProduct e then [⟨.unboundedArithmetic, "product of two variable terms"⟩]
  else []) ++
    (amplifiers precision e).map (fun t => ⟨.magnitudeJump, "multiplication by " ++ t⟩)

/-- The findings in a predicate. -/
def scanPredicate (limit : Decimal) (precision : Nat) (p : Predicate) : List Finding :=
  scanSide precision p.lhs ++ scanSide precision p.rhs ++
    (p.literals.filter (isAtLeast limit precision)).map
      (fun t => ⟨.magnitudeJump, "literal " ++ t ++ " at or above " ++ limit.text⟩) ++
    (sharedPrimed p).map (fun n => ⟨.selfReference, "'" ++ n ++ "' appears on both sides"⟩)

/-- The findings about one variable of an assigned term. -/
def scanVariable (i : Intent) (account name : String) : List Finding :=
  (if i.isExternal name && !(bounded i).contains name then
    [⟨.unboundedArithmetic,
      "external '" ++ name ++ "' moves '" ++ account ++ "' without a guard bound"⟩]
  else []) ++
    (if i.isSecret name then
      [⟨.secretLeak, "secret '" ++ name ++ "' flows into '" ++ account ++ "'"⟩]
    else [])

/-- The findings in an assignment. -/
def scanAssignment (i : Intent) (a : String × Expr) : List Finding :=
  a.2.variableNames.flatMap (scanVariable i a.1)

/-- All findings in an intent. -/
def findings (limit : Decimal) (precision : Nat) (i : Intent) : List Finding :=
  i.predicates.flatMap (scanPredicate limit precision) ++ i.assignments.flatMap (scanAssignment i)

/-- The settings that the verifier works with. -/
structure Settings where
  magnitudeLimit : Decimal
  cleanConfidence : Float
  rejectScore : Float

/-- The settings of a configuration. -/
def Settings.ofConfig (c : PatternConfig) : Except Fault Settings :=
  match Decimal.parse c.magnitudeLimit Decimal.maxPrecision with
  | .error f => .error f
  | .ok limit => .ok ⟨limit, c.cleanConfidence, c.rejectScore⟩

/-- Whether work may go on each time that a run looks up, for a number of times. -/
def stayLive (c : Context) : Nat → Except Fault Unit
  | 0 => .ok ()
  | n + 1 =>
    match stayLive c n with
    | .error f => .error f
    | .ok () => c.ensureLive (Moment.start.later n)

/-- Looks an intent over. The work looks up before each predicate. -/
def scan (s : Settings) (c : Context) : Except Fault (List Finding) :=
  match stayLive c c.intent.predicates.length with
  | .error f => .error f
  | .ok () => .ok (findings s.magnitudeLimit c.precision c.intent)

/-- The sum of the weights, at most one. -/
def score (fs : List Finding) : Float :=
  let sum := (fs.map (fun f => f.shape.weight)).foldl (· + ·) 0
  if 1 < sum then 1 else sum

/-- The verdict on findings. -/
def ofFindings (s : Settings) (fs : List Finding) : Verdict :=
  if fs.isEmpty then .approve .pattern s.cleanConfidence "no known exploit shapes"
  else
    let total := score fs
    let text := "score " ++ Binary64.fixedTwo total ++ ": " ++
      "; ".intercalate (fs.map Finding.detail)
    if s.rejectScore ≤ total then .reject .pattern total text
    else .approve .pattern (s.cleanConfidence - total) text

/-- The work of the verifier. -/
def work (s : Settings) (c : Context) : Except Fault Verdict :=
  match scan s c with
  | .error f => .error f
  | .ok fs => .ok (ofFindings s fs)

/-- The verdict of the verifier. -/
def verify (s : Settings) (c : Context) : Verdict := .bounded .pattern c (work s c)

/-- Whether a predicate has a shape that the verifier looks for. -/
def isSuspicious (limit : Decimal) (precision : Nat) (p : Predicate) : Bool :=
  hasVariableProduct p.lhs || hasVariableProduct p.rhs ||
    p.literals.any (isAtLeast limit precision) || !(sharedPrimed p).isEmpty

/-- Whether an intent may have a shape that the verifier looks for. -/
def looksAnomalous (limit : Decimal) (precision : Nat) (i : Intent) : Bool :=
  i.variableFlags.values.any (fun f => f.external || f.secret) ||
    i.predicates.any (isSuspicious limit precision)

end LedgerGate.Pattern

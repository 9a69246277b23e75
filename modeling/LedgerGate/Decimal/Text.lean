import LedgerGate.Decimal.Basic

/-!
# Decimal text

A value is written with exactly as many fraction digits as its scale says, with a
zero before a bare point and a minus sign in front. Only such text is read, and
only within a precision; any other spelling is refused with the reason.
-/

namespace LedgerGate.Decimal

/-! ## Writing -/

/-- The decimal digits of a number. -/
def digitsOf (n : Nat) : List Char := Nat.toDigits 10 n

/-- Digits with zeros in front up to a width. -/
def padded (width : Nat) (digits : List Char) : List Char :=
  List.replicate (width - digits.length) '0' ++ digits

/-- Digits with a point before the last `scale` of them. -/
def pointed (scale : Nat) (digits : List Char) : List Char :=
  if scale = 0 then digits
  else
    let wide := padded (scale + 1) digits
    wide.take (wide.length - scale) ++ '.' :: wide.drop (wide.length - scale)

/-- The characters of a decimal's text. -/
def chars (d : Decimal) : List Char :=
  let body := pointed d.scale (digitsOf d.mantissa.natAbs)
  if d.mantissa < 0 then '-' :: body else body

/-- The text of a decimal. -/
def text (d : Decimal) : String := String.ofList d.chars

/-! ## Reading -/

/-- Why a text, or a pair of parts, is no decimal. -/
inductive Refusal where
  | scaleTooLarge
  | noWholeDigits
  | leadingZero
  | trailingPoint
  | badFraction
  | tooManyDigits (digits precision : Nat)
  | tooManyPlaces (places precision : Nat)
  | tooWide
  | negativeZero
  | notCanonical
deriving DecidableEq, Repr

/-- The wording of a refusal. -/
def Refusal.message : Refusal → String
  | scaleTooLarge => "scale exceeds " ++ toString maxPrecision
  | noWholeDigits => "integer part must be a non-empty run of digits"
  | leadingZero => "leading zeros do not round-trip"
  | trailingPoint => "trailing decimal point does not round-trip"
  | badFraction => "fractional part must be digits only"
  | tooManyDigits n p =>
    toString n ++ " significant digits exceed precision " ++ toString p
  | tooManyPlaces n p =>
    toString n ++ " fractional digits exceed precision " ++ toString p
  | tooWide => "value exceeds 128-bit mantissa"
  | negativeZero => "negative zero does not round-trip"
  | notCanonical => "value does not round-trip"

/-- Whether every character is one of the ten digits. -/
def allDigits (cs : List Char) : Bool := cs.all Char.isDigit

/-- The number that a run of digits spells. -/
def valueOf (digits : List Char) : Nat := Nat.ofDigitChars 10 digits 0

/-- The sign and the rest of a text. -/
def splitSign : List Char → Bool × List Char
  | '-' :: r => (true, r)
  | cs => (false, cs)

/-- What stands before the first point, and what stands after it if there is one. -/
def splitPoint (cs : List Char) : List Char × Option (List Char) :=
  (cs.takeWhile (· ≠ '.'),
    match cs.dropWhile (· ≠ '.') with
    | [] => none
    | _ :: r => some r)

/-- The mantissa that a run of digits spells, when it is in range. -/
def readMantissa (negative : Bool) (digits : List Char) : Except Refusal Int :=
  if ¬ Int128.Fits (valueOf digits) then .error .tooWide
  else if negative then
    if valueOf digits = 0 then .error .negativeZero else .ok (-(valueOf digits : Int))
  else .ok (valueOf digits)

/-- The decimal that digits before and after the point spell. -/
def readDigits (cs : List Char) (negative : Bool) (whole fraction : List Char) :
    Except Refusal Decimal :=
  match readMantissa negative (whole ++ fraction) with
  | .error e => .error e
  | .ok m =>
    match make? m fraction.length with
    | none => .error .tooWide
    -- The rules before this one leave a single spelling; this one is a second lock.
    | some d => if d.chars = cs then .ok d else .error .notCanonical

/-- The decimal that a text spells exactly, with at most `precision` digits that
count and at most `precision` digits after the point. -/
def read (cs : List Char) (precision : Nat) : Except Refusal Decimal :=
  let limit := min precision maxPrecision
  let (negative, body) := splitSign cs
  let (whole, after) := splitPoint body
  let fraction := after.getD []
  let significant := ((whole ++ fraction).dropWhile (· = '0')).length
  if whole.isEmpty || !allDigits whole then .error .noWholeDigits
  else if 1 < whole.length ∧ whole.head? = some '0' then .error .leadingZero
  else if after = some [] then .error .trailingPoint
  else if !allDigits fraction then .error .badFraction
  else if limit < significant then .error (.tooManyDigits significant limit)
  else if limit < fraction.length then .error (.tooManyPlaces fraction.length limit)
  else readDigits cs negative whole fraction

/-- The decimal of a text, or the fault with the text and the reason. -/
def parse (s : String) (precision : Nat) : Except Fault Decimal :=
  match read s.toList precision with
  | .ok d => .ok d
  | .error e => .error (.inexact s e.message)

/-- The decimal with the given parts, or the fault that names them. -/
def ofParts (mantissa : Int) (scale : Nat) : Except Fault Decimal :=
  match make? mantissa scale with
  | some d => .ok d
  | none =>
    .error (.inexact (toString mantissa ++ "e-" ++ toString scale) Refusal.scaleTooLarge.message)

end LedgerGate.Decimal

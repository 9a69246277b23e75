import LedgerGate.Binary64.Nearest

/-!
# Reading floating-point numbers

`read?` takes the text of a number as a person would type it: an optional sign,
digits with or without a point, an optional exponent, or a word for infinity or
for no number, in any case of letters. The result is the closest number.
-/

namespace LedgerGate.Binary64

/-- The parts of an unsigned numeral. -/
structure Numeral where
  whole : List Char
  fraction : List Char
  negativeExponent : Bool
  exponent : List Char

/-- Splits an unsigned numeral into digits, fraction digits and exponent. -/
def numeral? (cs : List Char) : Option Numeral :=
  let whole := cs.takeWhile Char.isDigit
  let rest := cs.dropWhile Char.isDigit
  let (fraction, rest) := match rest with
    | '.' :: r => (r.takeWhile Char.isDigit, r.dropWhile Char.isDigit)
    | r => ([], r)
  if whole.isEmpty && fraction.isEmpty then none
  else
    match rest with
    | [] => some ⟨whole, fraction, false, []⟩
    | e :: r =>
      if e ≠ 'e' ∧ e ≠ 'E' then none
      else
        let (negative, digits) := match r with
          | '-' :: d => (true, d)
          | '+' :: d => (false, d)
          | d => (false, d)
        if digits.isEmpty || !digits.all Char.isDigit then none
        else some ⟨whole, fraction, negative, digits⟩

/-- The closest number to a numeral. -/
def Numeral.value (n : Numeral) : Float :=
  let digits := n.whole ++ n.fraction
  let e : Int := Nat.ofDigitChars 10 n.exponent 0
  ofScientific (Nat.ofDigitChars 10 digits 0)
    ((if n.negativeExponent then -e else e) - n.fraction.length)

/-- Positive infinity. -/
def infinity : Float := Float.ofBits 0x7ff0000000000000

/-- The number that is none. -/
def notANumber : Float := Float.ofBits 0x7ff8000000000000

/-- The value of an unsigned text. -/
def readUnsigned? (cs : List Char) : Option Float :=
  let word := String.ofList (cs.map Char.toLower)
  if word = "inf" ∨ word = "infinity" then some infinity
  else if word = "nan" then some notANumber
  else (numeral? cs).map Numeral.value

/-- The floating-point number that a text spells. -/
def read? : List Char → Option Float
  | '-' :: r => (readUnsigned? r).map (fun x => -x)
  | '+' :: r => readUnsigned? r
  | cs => readUnsigned? cs

end LedgerGate.Binary64

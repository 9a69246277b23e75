import LedgerGate.Json.Basic

/-!
# Numbers in data texts

A numeral without point or exponent is a whole number when it fits 64 bits, with or
without a sign. Any other becomes a floating-point number: as many digits as fit an
unsigned 64-bit word, taken as a floating-point number and then multiplied or divided
by a power of ten. This is fast and can miss the closest number by a little. The digest
of a value depends on which number that is.
-/

namespace LedgerGate.Json

/-- The parts of a numeral. -/
structure Numeral where
  negative : Bool
  whole : List Char
  fraction : Option (List Char)
  exponent : Option (Bool × List Char)

/-- Reads the exponent of a numeral, and all that follows the digits of its whole part
or fraction. -/
def exponent? : List Char → Option (Option (Bool × List Char))
  | [] => some none
  | e :: r =>
    if e ≠ 'e' ∧ e ≠ 'E' then none
    else
      let (negative, digits) := match r with
        | '-' :: d => (true, d)
        | '+' :: d => (false, d)
        | d => (false, d)
      if digits.isEmpty || !digits.all Char.isDigit then none else some (some (negative, digits))

/-- Splits a numeral into its parts, or refuses what is none. -/
def numeral? (cs : List Char) : Option Numeral :=
  let (negative, body) := match cs with
    | '-' :: r => (true, r)
    | r => (false, r)
  let whole := body.takeWhile Char.isDigit
  if whole.isEmpty ∨ (1 < whole.length ∧ whole.head? = some '0') then none
  else
    match body.dropWhile Char.isDigit with
    | '.' :: r =>
      let fraction := r.takeWhile Char.isDigit
      if fraction.isEmpty then none
      else (exponent? (r.dropWhile Char.isDigit)).map (fun e => ⟨negative, whole, some fraction, e⟩)
    | r => (exponent? r).map (fun e => ⟨negative, whole, none, e⟩)

/-- Takes digits into a significand as long as it fits the word, and counts those that
are left from the first that does not fit. -/
def takeDigits (significand : Nat) : List Char → Nat × Nat
  | [] => (significand, 0)
  | c :: r =>
    let more := significand * 10 + (c.toNat - 48)
    if more ≤ maxUInt64 then takeDigits more r else (significand, r.length + 1)

/-- Scales a number by a power of ten, in steps within the range of powers. -/
def scaleByTen (x : Float) (e : Int) : Nat → Option Float
  | 0 => some x
  | fuel + 1 =>
    if e.natAbs ≤ 308 then
      if 0 ≤ e then
        let y := x * Binary64.nearest (tenTo e.natAbs) 1
        if y.isInf then none else some y
      else some (x / Binary64.nearest (tenTo e.natAbs) 1)
    else if x == 0 then some x
    else if 0 ≤ e then none
    else scaleByTen (x / Binary64.nearest (tenTo 308) 1) (e + 308) fuel

/-- A floating-point value with a sign, if the magnitude is in range. -/
def signedFloat (negative : Bool) : Option Float → Json
  | some x => float (if negative then -x else x)
  | none => broken

/-- The value of a numeral with a point, an exponent, or too many digits. -/
def Numeral.floatValue (n : Numeral) : Json :=
  let (significand, dropped) := takeDigits 0 n.whole
  let fraction := n.fraction.getD []
  let (significand, left) := takeDigits significand fraction
  let e : Int := (dropped : Int) - ((fraction.length - left : Nat) : Int)
  match n.exponent with
  | none => signedFloat n.negative (scaleByTen (Binary64.nearest significand 1) e 4)
  | some (negative, digits) =>
    let power : Int := Nat.ofDigitChars 10 digits 0
    if 2147483647 < power then
      if significand ≠ 0 ∧ !negative then broken else signedFloat n.negative (some 0)
    else
      let e := if negative then e - power else e + power
      signedFloat n.negative (scaleByTen (Binary64.nearest significand 1) e 4)

/-- The value of a numeral. -/
def Numeral.value (n : Numeral) : Json :=
  match n.fraction, n.exponent with
  | none, none =>
    let m := Nat.ofDigitChars 10 n.whole 0
    if n.negative then
      if m = 0 then float (-0.0)
      else if m ≤ twoTo 63 then integer (-(m : Int))
      else if m ≤ maxUInt64 then signedFloat true (some (Binary64.nearest m 1))
      else n.floatValue
    else if m ≤ maxUInt64 then integer m
    else n.floatValue
  | _, _ => n.floatValue

end LedgerGate.Json

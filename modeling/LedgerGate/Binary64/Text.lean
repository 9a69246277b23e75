import LedgerGate.Binary64.Shortest
import LedgerGate.Text.Hex

/-!
# Text of floating-point numbers

Three ways to write a number: `plain` always positionally and without a point for
whole numbers, `spelled` with a point or an exponent so that it never looks like a
whole number, and `fixedTwo` rounded to two places from its exact value.
-/

namespace LedgerGate.Binary64

/-- Digits with a point after the first `k`, filled up with zeros where needed; a
whole number gets no point. -/
def positional (digits : List Char) (k : Int) : List Char :=
  if k ≤ 0 then ['0', '.'] ++ List.replicate (-k).toNat '0' ++ digits
  else if (digits.length : Int) ≤ k then
    digits ++ List.replicate (k - digits.length).toNat '0'
  else digits.take k.toNat ++ ['.'] ++ digits.drop k.toNat

/-- A sign in front of a text. -/
def signed (negative : Bool) (cs : List Char) : List Char := if negative then '-' :: cs else cs

/-- A number written positionally, with the fewest digits that read back, the upper ones
if two are equally near. -/
def plain (x : Float) : String :=
  match kind x with
  | .notANumber => "NaN"
  | .infinite negative => String.ofList (signed negative ['i', 'n', 'f'])
  | .finite negative parts =>
    if parts.mantissa = 0 then String.ofList (signed negative ['0'])
    else
      let s := parts.shortest .upper
      let digits := Nat.toDigits 10 s.digits
      String.ofList (signed negative (positional digits (digits.length + s.exponent)))

/-- The exponent of a number in a data text; its sign is always written. -/
def exponentChars (e : Int) : List Char :=
  'e' :: (if 0 ≤ e then '+' else '-') :: Nat.toDigits 10 e.natAbs

/-- A number in a data text: the fewest digits that read back, the even one if two are
equally near, positionally from `0.00001` up to below `10 ^ 16` and with `.0` after a
whole number, otherwise with an exponent. Only finite numbers have such a text. -/
def spelledChars (x : Float) : Option (List Char) :=
  match kind x with
  | .notANumber | .infinite _ => none
  | .finite negative parts =>
    if parts.mantissa = 0 then some (signed negative ['0', '.', '0'])
    else
      let s := parts.shortest .even
      let digits := Nat.toDigits 10 s.digits
      let k : Int := digits.length + s.exponent
      if -5 < k ∧ k ≤ 16 then
        let body := positional digits k
        some (signed negative (if 0 ≤ s.exponent then body ++ ['.', '0'] else body))
      else
        let point := if digits.length = 1 then digits else digits.take 1 ++ '.' :: digits.drop 1
        some (signed negative (point ++ exponentChars (k - 1)))

/-- A number rounded to two places, a tie to the even digit. -/
def fixedTwo (x : Float) : String :=
  match kind x with
  | .notANumber => "NaN"
  | .infinite negative => String.ofList (signed negative ['i', 'n', 'f'])
  | .finite negative p =>
    let hundredths := roundDiv (100 * p.mantissa * twoNum p.exponent) (twoDen p.exponent)
    let digits := Nat.toDigits 10 hundredths
    let wide := List.replicate (3 - digits.length) '0' ++ digits
    String.ofList
      (signed negative (wide.take (wide.length - 2) ++ '.' :: wide.drop (wide.length - 2)))

/-- The sixteen hexadecimal digits of a number's bits. -/
def bitsText (x : Float) : String :=
  let n := x.toBits.toNat
  String.ofList ([3, 2, 1, 0].flatMap (fun i => Text.Hex.fourDigits (n / twoTo (16 * i) % 65536)))

end LedgerGate.Binary64

import LedgerGate.Power

/-!
# Floating-point numbers as exact fractions

A finite floating-point number is a whole number times a power of two. `parts`
takes a number apart into these, and `nearest` goes back from a fraction to the
closest floating-point number, a tie going to the even one.
-/

namespace LedgerGate.Binary64

/-- A finite number without its sign: `mantissa * 2 ^ exponent`. -/
structure Parts where
  mantissa : Nat
  exponent : Int

/-- The kinds of floating-point numbers. -/
inductive Kind where
  | finite (negative : Bool) (parts : Parts)
  | infinite (negative : Bool)
  | notANumber

/-- What a floating-point number is, from its bits. -/
def kind (x : Float) : Kind :=
  let bits : Nat := x.toBits.toNat
  let negative := bits / twoTo 63 == 1
  let biased : Nat := bits / twoTo 52 % 2048
  let fraction : Nat := bits % twoTo 52
  if biased = 2047 then if fraction = 0 then .infinite negative else .notANumber
  else if biased = 0 then .finite negative ⟨fraction, -1074⟩
  else .finite negative ⟨twoTo 52 + fraction, (biased : Int) - 1075⟩

/-- The numerator of a power of two as a fraction. -/
def twoNum (e : Int) : Nat := twoTo e.toNat

/-- The denominator of a power of two as a fraction. -/
def twoDen (e : Int) : Nat := twoTo (-e).toNat

/-- The numerator of a power of ten as a fraction. -/
def tenNum (e : Int) : Nat := tenTo e.toNat

/-- The denominator of a power of ten as a fraction. -/
def tenDen (e : Int) : Nat := tenTo (-e).toNat

/-- The quotient of two numbers rounded to the nearest, a tie to the even one. -/
def roundDiv (n d : Nat) : Nat :=
  let q := n / d
  let r := n % d
  if 2 * r < d then q else if d < 2 * r then q + 1 else if q % 2 = 0 then q else q + 1

/-- The bits of `mantissa * 2 ^ exponent`, for a mantissa of at most 53 bits, or the
next power of two, and of fewer bits only at the least exponent. -/
def assemble (mantissa : Nat) (exponent : Int) : Nat :=
  if mantissa < twoTo 52 then mantissa
  else
    let bits := (exponent + 1075).toNat * twoTo 52 + (mantissa - twoTo 52)
    min bits (2047 * twoTo 52)

/-- The floating-point number closest to a fraction. -/
def nearest (n d : Nat) : Float :=
  if n = 0 ∨ d = 0 then 0
  else
    let guess : Int := max ((n.log2 : Int) - d.log2 - 53) (-1074)
    let wide := n * twoDen guess / (d * twoNum guess)
    let e := if twoTo 53 ≤ wide then guess + 1 else guess
    Float.ofBits (UInt64.ofNat (assemble (roundDiv (n * twoDen e) (d * twoNum e)) e))

/-- The number of digits that a number needs. -/
def digitCount (n : Nat) : Nat := (Nat.toDigits 10 n).length

/-- The floating-point number closest to `mantissa * 10 ^ exponent`. Exponents far
outside the range are settled without computing the power. -/
def ofScientific (mantissa : Nat) (exponent : Int) : Float :=
  let magnitude := (digitCount mantissa : Int) + exponent
  if mantissa = 0 ∨ magnitude < -400 then 0
  else if 400 < magnitude then Float.ofBits 0x7ff0000000000000
  else nearest (mantissa * tenNum exponent) (tenDen exponent)

end LedgerGate.Binary64

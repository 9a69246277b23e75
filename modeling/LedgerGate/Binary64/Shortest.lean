import LedgerGate.Binary64.Nearest

/-!
# The shortest decimal that reads back

Among the decimals that a floating-point number is the closest to, `shortest`
finds one with the fewest digits, and of these the one nearest to the number. A
`Tie` says which one that is when two are equally near.
-/

namespace LedgerGate.Binary64

/-- A decimal `digits * 10 ^ exponent`. -/
structure Scientific where
  digits : Nat
  exponent : Int
deriving DecidableEq, Repr

/-- What a number halfway between two decimals takes. -/
inductive Tie where
  /-- The upper one. -/
  | upper
  /-- The one whose last digit is even. -/
  | even
deriving DecidableEq, Repr

/-- The choice between the decimals of `c` and `c + 1`, for a number halfway between. -/
def Tie.choose (t : Tie) (c : Nat) : Nat :=
  match t with
  | upper => c + 1
  | even => if c % 2 = 0 then c else c + 1

/-- The interval of numbers that round to a given one, in units of a quarter of
its last place, with the number itself in the same units. -/
structure Interval where
  low : Nat
  mid : Nat
  high : Nat
  closed : Bool
  unit : Int

/-- The interval that rounds to a number. Below a power of two the next number is
only half as far away. -/
def Parts.interval (p : Parts) : Interval :=
  let narrow := p.mantissa = twoTo 52 ∧ -1074 < p.exponent
  { low := 4 * p.mantissa - (if narrow then 1 else 2)
    mid := 4 * p.mantissa
    high := 4 * p.mantissa + 2
    closed := p.mantissa % 2 == 0
    unit := p.exponent - 2 }

/-- Compares `x * unit` of an interval with `c * 10 ^ e`. -/
def compareAt (unit : Int) (x : Nat) (c : Nat) (e : Int) : Ordering :=
  compare (x * twoNum unit * tenDen e) (c * tenNum e * twoDen unit)

/-- Whether `c * 10 ^ e` lies in an interval. -/
def Interval.holds (i : Interval) (c : Nat) (e : Int) : Bool :=
  match compareAt i.unit i.low c e, compareAt i.unit i.high c e with
  | .lt, .gt => true
  | .eq, _ => i.closed
  | _, .eq => i.closed
  | _, _ => false

/-- The exponent `k` with `10 ^ (k - 1) ≤ x * 2 ^ unit < 10 ^ k`, for a positive `x`. -/
def magnitude (x : Nat) (unit : Int) : Int :=
  let n := x * twoNum unit
  let d := twoDen unit
  if d ≤ n then digitCount (n / d)
  else
    match (List.range 400).find? (fun j => d ≤ n * tenTo (j + 1)) with
    | some j => -(j : Int)
    | none => -400

/-- The best decimal of a given exponent in the interval, if there is one. -/
def Interval.candidate (i : Interval) (t : Tie) (e : Int) : Option Scientific :=
  let n := i.mid * twoNum i.unit * tenDen e
  let d := twoDen i.unit * tenNum e
  let c := n / d
  match i.holds c e, i.holds (c + 1) e with
  | true, true =>
    match compare (2 * (n % d)) d with
    | .lt => some ⟨c, e⟩
    | .eq => some ⟨t.choose c, e⟩
    | .gt => some ⟨c + 1, e⟩
  | true, false => some ⟨c, e⟩
  | false, true => some ⟨c + 1, e⟩
  | false, false => none

/-- Moves trailing zeros of the digits into the exponent. -/
def Scientific.trimmed (s : Scientific) : Nat → Scientific
  | 0 => s
  | fuel + 1 =>
    if s.digits % 10 = 0 ∧ s.digits ≠ 0 then
      Scientific.trimmed ⟨s.digits / 10, s.exponent + 1⟩ fuel
    else s

/-- The shortest decimal that reads back as a positive number. Seventeen digits
always suffice. -/
def Parts.shortest (p : Parts) (t : Tie) : Scientific :=
  let i := p.interval
  let k := magnitude i.mid i.unit
  match (List.range 17).findSome? (fun (n : Nat) => i.candidate t (k - ((n : Int) + 1))) with
  | some s => s.trimmed 20
  | none => ⟨p.mantissa, 0⟩

end LedgerGate.Binary64

import LedgerGate.Fault
import LedgerGate.Int128
import LedgerGate.Power

/-!
# Exact decimals

A `Decimal` is a whole mantissa with a number of fraction digits, its scale: it
stands for `mantissa / 10 ^ scale`. The mantissa fits a signed 128-bit word and
the scale is at most 38. Nothing here rounds: an operation is exact or fails.
-/

namespace LedgerGate

/-- An exact number with a decimal point. -/
structure Decimal where
  mantissa : Int
  scale : Nat
  mantissa_fits : Int128.Fits mantissa
  scale_le : scale ≤ 38
deriving DecidableEq

namespace Decimal

/-- The largest scale, and the largest number of digits that every mantissa of
that many digits can carry. -/
def maxPrecision : Nat := 38

/-- The precision of text that comes without one. -/
def defaultPrecision : Nat := 28

instance : Repr Decimal := ⟨fun d n => reprPrec (d.mantissa, d.scale) n⟩

@[ext]
theorem ext {a b : Decimal} (h : a.mantissa = b.mantissa) (h' : a.scale = b.scale) : a = b := by
  cases a; cases b; cases h; cases h'; rfl

/-- The decimal with these parts, when they are in range. -/
def make? (mantissa : Int) (scale : Nat) : Option Decimal :=
  if h : Int128.Fits mantissa ∧ scale ≤ 38 then some ⟨mantissa, scale, h.1, h.2⟩ else none

theorem make?_eq_some_iff {m : Int} {s : Nat} {d : Decimal} :
    make? m s = some d ↔ d.mantissa = m ∧ d.scale = s := by
  unfold make?
  split
  · obtain ⟨dm, ds, h1, h2⟩ := d
    simp only [Option.some.injEq, mk.injEq]
    exact ⟨fun h => ⟨h.1.symm, h.2.symm⟩, fun h => ⟨h.1.symm, h.2.symm⟩⟩
  · next h =>
    refine ⟨fun e => by simp at e, fun e => ?_⟩
    obtain ⟨rfl, rfl⟩ := e
    exact absurd ⟨d.mantissa_fits, d.scale_le⟩ h

instance : OfNat Decimal 0 := ⟨⟨0, 0, Int128.fits_zero, Nat.zero_le _⟩⟩

instance : Inhabited Decimal := ⟨0⟩

/-- The decimal without fraction digits of a signed 64-bit number. -/
def ofInt64 (n : Int64) : Decimal :=
  ⟨n.toInt, 0, by
    have h1 := n.le_toInt
    have h2 := n.toInt_lt
    unfold Int128.Fits Int128.bound
    omega, Nat.zero_le _⟩

/-- Whether the value is zero. -/
def isZero (d : Decimal) : Bool := d.mantissa == 0

/-- Whether the value is below zero. -/
def isNegative (d : Decimal) : Bool := decide (d.mantissa < 0)

/-! ## Normal form -/

/-- A mantissa and scale without trailing zeros in the fraction. -/
def stripZeros (m : Int) : Nat → Int × Nat
  | 0 => (m, 0)
  | s + 1 => if m % 10 = 0 then stripZeros (m / 10) s else (m, s + 1)

theorem stripZeros_scale_le (m : Int) (s : Nat) : (stripZeros m s).2 ≤ s := by
  induction s generalizing m with
  | zero => simp [stripZeros]
  | succ s ih =>
    unfold stripZeros
    split
    · exact Nat.le_succ_of_le (ih _)
    · exact Nat.le_refl _

theorem stripZeros_fits {m : Int} (h : Int128.Fits m) (s : Nat) :
    Int128.Fits (stripZeros m s).1 := by
  induction s generalizing m with
  | zero => simpa [stripZeros] using h
  | succ s ih =>
    unfold stripZeros
    split
    · refine ih (h.toward_zero ?_ ?_) <;> omega
    · exact h

/-- The same value without trailing zeros in its fraction. -/
def normalize (d : Decimal) : Decimal :=
  ⟨(stripZeros d.mantissa d.scale).1, (stripZeros d.mantissa d.scale).2,
    stripZeros_fits d.mantissa_fits _,
    Nat.le_trans (stripZeros_scale_le _ _) d.scale_le⟩

/-- Whether a decimal is its own normal form. -/
def IsNormal (d : Decimal) : Prop := d.normalize = d

instance (d : Decimal) : Decidable d.IsNormal := inferInstanceAs (Decidable (_ = _))

/-! ## Arithmetic -/

/-- The mantissa of the same value at a scale not below its own. -/
def mantissaAt (d : Decimal) (scale : Nat) : Int := d.mantissa * tenTo (scale - d.scale)

/-- The common scale of two decimals. -/
def commonScale (a b : Decimal) : Nat := max a.scale b.scale

/-- A result, or the fault that the named operation left the range. -/
def orOverflow (operation : String) : Option Decimal → Except Fault Decimal
  | some d => .ok d
  | none => .error (.overflow operation)

/-- The sum, at the larger scale. Both operands must fit at that scale too. -/
def add (a b : Decimal) : Except Fault Decimal :=
  orOverflow "decimal add" (do
    let x ← Int128.checked (a.mantissaAt (commonScale a b))
    let y ← Int128.checked (b.mantissaAt (commonScale a b))
    make? (x + y) (commonScale a b))

/-- The value with the other sign. -/
def neg (d : Decimal) : Except Fault Decimal :=
  orOverflow "decimal negate" (make? (-d.mantissa) d.scale)

/-- The difference, at the larger scale. -/
def sub (a b : Decimal) : Except Fault Decimal :=
  match b.neg with
  | .ok c => a.add c
  | .error e => .error e

/-- The product of the normal forms. -/
def mul (a b : Decimal) : Except Fault Decimal :=
  orOverflow "decimal multiply"
    (make? (a.normalize.mantissa * b.normalize.mantissa) (a.normalize.scale + b.normalize.scale))

/-- The value without its sign. -/
def abs (d : Decimal) : Except Fault Decimal := if d.isNegative then d.neg else .ok d

/-- The sum of a list, added up from zero in order. -/
def sumFrom (start : Decimal) : List Decimal → Except Fault Decimal
  | [] => .ok start
  | d :: r =>
    match start.add d with
    | .ok s => sumFrom s r
    | .error e => .error e

/-- The sum of a list. -/
def sum (ds : List Decimal) : Except Fault Decimal := sumFrom 0 ds

/-! ## Order -/

/-- The part before the point, with the sign of the value. -/
def whole (d : Decimal) : Int := d.mantissa.tdiv (tenTo d.scale)

/-- The digits after the point at a scale not below its own, with the sign of the value. -/
def fractionAt (d : Decimal) (scale : Nat) : Int :=
  d.mantissa.tmod (tenTo d.scale) * tenTo (scale - d.scale)

/-- The order of two values: by the parts before the point, then by those after it. -/
def order (a b : Decimal) : Ordering :=
  (compare a.whole b.whole).then
    (compare (a.fractionAt (commonScale a b)) (b.fractionAt (commonScale a b)))

/-- Whether two decimals have one value, at whatever scales. -/
def sameValue (a b : Decimal) : Bool := a.order b == .eq

end Decimal
end LedgerGate

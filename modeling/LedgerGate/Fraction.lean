import LedgerGate.Decimal.Basic

/-!
# Fractions

Exact fractions in lowest terms with a positive denominator, both parts within a
signed 128-bit word. An operation whose result, or whose working product, leaves
the word gives no fraction.
-/

namespace LedgerGate

/-- A fraction in lowest terms. -/
structure Fraction where
  num : Int
  den : Int
  den_pos : 0 < den
  reduced : Int.gcd num den = 1
  num_fits : Int128.Fits num
  den_fits : Int128.Fits den

namespace Fraction

open Int128 (Fits checked)

@[ext]
theorem ext {a b : Fraction} (h : a.num = b.num) (h' : a.den = b.den) : a = b := by
  cases a; cases b; cases h; cases h'; rfl

instance : DecidableEq Fraction := fun a b =>
  if h : a.num = b.num ∧ a.den = b.den then isTrue (ext h.1 h.2)
  else isFalse (fun e => h (e ▸ ⟨rfl, rfl⟩))

instance : Repr Fraction := ⟨fun q n => reprPrec (q.num, q.den) n⟩

instance : OfNat Fraction 0 := ⟨⟨0, 1, by decide, by decide, by decide, by decide⟩⟩

instance : OfNat Fraction 1 := ⟨⟨1, 1, by decide, by decide, by decide, by decide⟩⟩

/-- The fraction -1. -/
def minusOne : Fraction := ⟨-1, 1, by decide, by decide, by decide, by decide⟩

instance : Inhabited Fraction := ⟨0⟩

theorem fits_div {n d : Int} (hn : Fits n) (hd : 0 < d) (h : d ∣ n) : Fits (n / d) := by
  obtain ⟨k, rfl⟩ := h
  rw [Int.mul_ediv_cancel_left _ (by omega)]
  refine hn.toward_zero (fun h0 => ?_) (fun h0 => ?_)
  · have hk : 0 ≤ k := by
      rcases Int.lt_or_le k 0 with hk | hk
      · have := Int.mul_neg_of_pos_of_neg hd hk; omega
      · exact hk
    have := Int.mul_le_mul_of_nonneg_right (show 1 ≤ d by omega) hk
    exact ⟨hk, by omega⟩
  · have hk : k ≤ 0 := by
      rcases Int.lt_or_le 0 k with hk | hk
      · have := Int.mul_pos hd hk; omega
      · exact hk
    refine ⟨?_, hk⟩
    have := Int.mul_le_mul_of_nonpos_right (show 1 ≤ d by omega) hk
    omega

theorem gcd_pos {n d : Int} (h : 0 < d) : 0 < (Int.gcd n d : Int) :=
  Int.natCast_pos.mpr (Int.gcd_pos_of_ne_zero_right _ (by omega))

/-- A fraction brought to lowest terms, for a positive denominator. -/
def reduce? (n d : Int) : Option Fraction :=
  if h : 0 < d ∧ Fits n ∧ Fits d then
    some {
      num := n / Int.gcd n d
      den := d / Int.gcd n d
      den_pos := Int.ediv_pos_of_pos_of_dvd h.1 (Int.le_of_lt (gcd_pos h.1)) (Int.gcd_dvd_right ..)
      reduced := Int.gcd_ediv_gcd_ediv_gcd (by
        have := gcd_pos (n := n) h.1
        omega)
      num_fits := fits_div h.2.1 (gcd_pos h.1) (Int.gcd_dvd_left ..)
      den_fits := fits_div h.2.2 (gcd_pos h.1) (Int.gcd_dvd_right ..) }
  else none

/-- The fraction of a numerator and a denominator of either sign. -/
def of? (n d : Int) : Option Fraction :=
  if d < 0 then reduce? (-n) (-d) else reduce? n d

/-- The fraction that a decimal stands for. -/
def ofDecimal? (d : Decimal) : Option Fraction := of? d.mantissa (tenTo d.scale)

/-- Whether the value is zero. -/
def isZero (q : Fraction) : Bool := q.num == 0

/-- The order of the value and zero. -/
def orderZero (q : Fraction) : Ordering := compare q.num 0

/-- The sum. -/
def add? (a b : Fraction) : Option Fraction :=
  let g : Int := Int.gcd a.den b.den
  do
    let x ← checked (a.num * (b.den / g))
    let y ← checked (b.num * (a.den / g))
    let d ← checked (a.den / g * b.den)
    let n ← checked (x + y)
    of? n d

/-- The product. Common factors are divided out before multiplying. -/
def mul? (a b : Fraction) : Option Fraction :=
  let g : Int := Int.gcd a.num b.den
  let g' : Int := Int.gcd b.num a.den
  do
    let n ← checked (a.num / g * (b.num / g'))
    let d ← checked (a.den / g' * (b.den / g))
    of? n d

/-- The value with the other sign. -/
def neg? (q : Fraction) : Option Fraction :=
  if h : Fits (-q.num) then
    some ⟨-q.num, q.den, q.den_pos, by simpa [Int.neg_gcd] using q.reduced, h, q.den_fits⟩
  else none

/-- One divided by the value. -/
def recip? (q : Fraction) : Option Fraction := of? q.den q.num

/-- The value without its sign. -/
def abs? (q : Fraction) : Option Fraction := if q.num < 0 then q.neg? else some q

/-- The order by which rows are sorted: by numerator, then by denominator. -/
def partsOrder (a b : Fraction) : Ordering := (compare a.num b.num).then (compare a.den b.den)

/-- The text of a fraction. -/
def text (q : Fraction) : String := toString q.num ++ "/" ++ toString q.den

/-! ## Zero results -/

theorem reduce?_num_eq_zero_iff {n d : Int} {q : Fraction} (h : reduce? n d = some q) :
    q.num = 0 ↔ n = 0 := by
  unfold reduce? at h
  split at h
  · next hd =>
    have hg := gcd_pos (n := n) hd.1
    obtain rfl := Option.some.inj h
    refine ⟨fun hz => ?_, fun hz => by simp [hz]⟩
    have := Int.ediv_mul_cancel (Int.gcd_dvd_left n d)
    rw [show n / (Int.gcd n d : Int) = 0 from hz] at this
    omega
  · simp at h

theorem of?_num_eq_zero_iff {n d : Int} {q : Fraction} (h : of? n d = some q) :
    q.num = 0 ↔ n = 0 := by
  unfold of? at h
  split at h
  · rw [reduce?_num_eq_zero_iff h]; omega
  · exact reduce?_num_eq_zero_iff h

theorem ediv_eq_zero_iff_of_dvd {n d : Int} (h : d ∣ n) (hd : 0 < d) : n / d = 0 ↔ n = 0 := by
  obtain ⟨k, rfl⟩ := h
  rw [Int.mul_ediv_cancel_left _ (by omega)]
  refine ⟨fun hk => by simp [hk], fun hk => ?_⟩
  rcases Int.mul_eq_zero.mp hk with h | h <;> omega

theorem mul?_num_eq_zero_iff {a b c : Fraction} (h : mul? a b = some c) :
    c.num = 0 ↔ a.num = 0 ∨ b.num = 0 := by
  unfold mul? at h
  simp only [Option.bind_eq_bind, Option.bind_eq_some_iff, Int128.checked_eq_some_iff] at h
  obtain ⟨n, ⟨-, rfl⟩, d, ⟨-, rfl⟩, h⟩ := h
  rw [of?_num_eq_zero_iff h, Int.mul_eq_zero,
    ediv_eq_zero_iff_of_dvd (Int.gcd_dvd_left ..) (gcd_pos b.den_pos),
    ediv_eq_zero_iff_of_dvd (Int.gcd_dvd_left ..) (gcd_pos a.den_pos)]

end Fraction
end LedgerGate

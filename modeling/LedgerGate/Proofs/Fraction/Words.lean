import LedgerGate.Proofs.Decimal.Arithmetic
import LedgerGate.Proofs.Fraction

/-!
# Fractions of machine words

The operations on fractions, as a machine does them on two signed 128-bit words that need not be in
lowest terms (`Word.Parts`). A checked step whose result does not fit the word refuses the
operation. A step that is not checked, which is a division here, stops the machine when the divisor
is zero or the quotient does not fit. On fractions in lowest terms that never happens: the machine
finds what the operation on `Fraction` gives, and refuses where it gives nothing.
-/

namespace LedgerGate.Word

open Int128 (Fits)

variable {α β γ : Type}

/-! ## Steps of the machine -/

/-- What becomes of a computation on words. -/
inductive Result (α : Type) where
  | done (a : α)
  /-- A checked step has found that its result does not fit. -/
  | refused
  /-- A step that is not checked cannot be done. -/
  | trapped
deriving DecidableEq

namespace Result

/-- One computation after another. -/
def bind : Result α → (α → Result β) → Result β
  | done a, f => f a
  | refused, _ => refused
  | trapped, _ => trapped

instance : Monad Result where
  pure := done
  bind := bind

@[simp] theorem pure_eq_done (a : α) : (pure a : Result α) = done a := rfl
@[simp] theorem done_bind (a : α) (f : α → Result β) : (done a >>= f) = f a := rfl

/-- The result of an operation that gives something or nothing. -/
def ofOption : Option α → Result α
  | some a => done a
  | none => refused

@[simp] theorem ofOption_some (a : α) : ofOption (some a) = done a := rfl
@[simp] theorem ofOption_none : ofOption (none : Option α) = refused := rfl

theorem ofOption_eq_done_iff {o : Option α} {a : α} : ofOption o = done a ↔ o = some a := by
  cases o with
  | none => exact ⟨nofun, nofun⟩
  | some b => exact ⟨fun h => congrArg some (Result.done.inj h), fun h => h ▸ rfl⟩

theorem ofOption_map_bind (o : Option α) (f : α → Option β) (g : β → γ) :
    ofOption ((o >>= f).map g) = ofOption o >>= fun a => ofOption ((f a).map g) := by
  cases o <;> rfl

end Result

open Result (done refused trapped ofOption)

/-- The result of a checked step. -/
def checked (n : Int) : Result Int := ofOption (Int128.checked n)

theorem checked_of_fits {n : Int} (h : Fits n) : checked n = done n := by
  rw [checked, Int128.checked, if_pos h, Result.ofOption_some]

theorem checked_of_not_fits {n : Int} (h : ¬ Fits n) : checked n = refused := by
  rw [checked, Int128.checked, if_neg h, Result.ofOption_none]

/-- What follows a checked step may rely on its result. -/
theorem checked_bind_congr {n : Int} {f g : Int → Result α} (h : Fits n → f n = g n) :
    (checked n >>= f) = checked n >>= g := by
  by_cases hn : Fits n
  · rw [checked_of_fits hn]
    exact h hn
  · rw [checked_of_not_fits hn]
    rfl

/-- A division, which is not checked. It rounds toward zero. -/
def divide (n d : Int) : Result Int :=
  if d = 0 ∨ ¬ Fits (n.tdiv d) then trapped else done (n.tdiv d)

/-- A division by a positive divisor without remainder can be done. -/
theorem divide_of_dvd {n d : Int} (hn : Fits n) (hd : 0 < d) (h : d ∣ n) :
    divide n d = done (n / d) := by
  have hquotient : n.tdiv d = n / d := Int.tdiv_eq_ediv_of_dvd h
  rw [divide, hquotient, if_neg]
  rintro (hzero | hfits)
  · omega
  · exact hfits (Fraction.fits_div hn hd h)

/-- The steps of the division algorithm. -/
def euclid (a b : Nat) : Nat := if b = 0 then a else euclid b (a % b)
  termination_by b
  decreasing_by exact Nat.mod_lt _ (by omega)

theorem euclid_eq_gcd (a b : Nat) : euclid a b = Nat.gcd a b := by
  fun_induction euclid a b with
  | case1 a => exact (Nat.gcd_zero_right a).symm
  | case2 a b _ ih =>
    rw [ih, Nat.gcd_comm a b, Nat.gcd_rec b a]
    exact Nat.gcd_comm b (a % b)

/-- The greatest common divisor, found with magnitudes; one, when it does not fit the word. -/
def gcd (a b : Int) : Int :=
  let g : Int := euclid a.natAbs b.natAbs
  if Fits g then g else 1

/-- Next to a positive word the greatest common divisor fits. -/
theorem gcd_of_pos (a : Int) {b : Int} (hb : 0 < b) (hfits : Fits b) : gcd a b = Int.gcd a b := by
  have hle : (Int.gcd a b : Int) ≤ b := Int.le_of_dvd hb (Int.gcd_dvd_right ..)
  have hpos := Fraction.gcd_pos (n := a) hb
  rw [gcd, euclid_eq_gcd]
  exact if_pos ⟨by unfold Int128.bound; omega, lt_of_le_of_lt hle hfits.2⟩

/-! ## Fractions -/

/-- A numerator and a denominator. -/
structure Parts where
  num : Int
  den : Int
deriving DecidableEq

/-- Whether the parts are in lowest terms. -/
structure Parts.IsCanonical (p : Parts) : Prop where
  den_pos : 0 < p.den
  coprime : Int.gcd p.num p.den = 1
  num_fits : Fits p.num
  den_fits : Fits p.den

/-- The rational number that the parts stand for. -/
def Parts.value (p : Parts) : ℚ := p.num / p.den

/-- The parts of a fraction. -/
def Parts.of (q : Fraction) : Parts := ⟨q.num, q.den⟩

theorem Parts.isCanonical_iff {p : Parts} : p.IsCanonical ↔ ∃ q, Parts.of q = p :=
  ⟨fun h => ⟨⟨p.num, p.den, h.den_pos, h.coprime, h.num_fits, h.den_fits⟩, rfl⟩,
    fun ⟨q, hq⟩ => hq ▸ ⟨q.den_pos, q.reduced, q.num_fits, q.den_fits⟩⟩

namespace Parts

/-- Parts with their common factor divided out. -/
def lowest (num den : Int) : Result Parts :=
  let g := gcd num den
  if 1 < g then do
    let n ← divide num g
    let d ← divide den g
    pure ⟨n, d⟩
  else pure ⟨num, den⟩

/-- The fraction of any two words. -/
def make (num den : Int) : Result Parts :=
  if den = 0 then refused
  else if den < 0 then do
    let n ← checked (-num)
    let d ← checked (-den)
    lowest n d
  else lowest num den

/-- The fraction that a decimal stands for. -/
def ofDecimal (d : Decimal) : Result Parts := do
  let den ← checked (tenTo d.scale)
  make d.mantissa den

/-- The sum. -/
def add (a b : Parts) : Result Parts := do
  let g := gcd a.den b.den
  let x ← checked (a.num * (← divide b.den g))
  let y ← checked (b.num * (← divide a.den g))
  let den ← checked ((← divide a.den g) * b.den)
  make (← checked (x + y)) den

/-- The product. -/
def mul (a b : Parts) : Result Parts := do
  let g := max (gcd a.num b.den) 1
  let g' := max (gcd b.num a.den) 1
  let num ← checked ((← divide a.num g) * (← divide b.num g'))
  let den ← checked ((← divide a.den g') * (← divide b.den g))
  make num den

/-- The value with the other sign. -/
def neg (p : Parts) : Result Parts := do
  let n ← checked (-p.num)
  pure ⟨n, p.den⟩

/-- One divided by the value. -/
def recip (p : Parts) : Result Parts := make p.den p.num

/-- The value without its sign. -/
def abs (p : Parts) : Result Parts := if p.num < 0 then p.neg else pure p

/-! ### What the machine finds -/

theorem lowest_eq {n d : Int} (hd : 0 < d) (hn : Fits n) (hd' : Fits d) :
    lowest n d = ofOption ((Fraction.reduce? n d).map Parts.of) := by
  have hpos := Fraction.gcd_pos (n := n) hd
  rw [Fraction.reduce?, dif_pos ⟨hd, hn, hd'⟩, Option.map_some, Result.ofOption_some, lowest,
    gcd_of_pos n hd hd']
  by_cases hg : 1 < (Int.gcd n d : Int)
  · rw [if_pos hg, divide_of_dvd hn hpos (Int.gcd_dvd_left ..),
      divide_of_dvd hd' hpos (Int.gcd_dvd_right ..)]
    rfl
  · have hone : (Int.gcd n d : Int) = 1 := by omega
    rw [if_neg hg]
    simp only [Parts.of, hone, Int.ediv_one, Result.pure_eq_done]

theorem make_eq {n d : Int} (hn : Fits n) (hd : Fits d) :
    make n d = ofOption ((Fraction.of? n d).map Parts.of) := by
  unfold make Fraction.of?
  by_cases hzero : d = 0
  · subst hzero
    simp [Fraction.reduce?]
  · rw [if_neg hzero]
    by_cases hneg : d < 0
    · rw [if_pos hneg, if_pos hneg]
      by_cases hn' : Fits (-n)
      · by_cases hd' : Fits (-d)
        · rw [checked_of_fits hn', checked_of_fits hd', Result.done_bind, Result.done_bind]
          exact lowest_eq (by omega) hn' hd'
        · rw [checked_of_fits hn', checked_of_not_fits hd', Fraction.reduce?,
            dif_neg fun h => hd' h.2.2]
          rfl
      · rw [checked_of_not_fits hn', Fraction.reduce?, dif_neg fun h => hn' h.2.1]
        rfl
    · rw [if_neg hneg, if_neg hneg]
      exact lowest_eq (by omega) hn hd

theorem ofDecimal_eq (d : Decimal) :
    ofDecimal d = ofOption ((Fraction.ofDecimal? d).map Parts.of) := by
  have hfits : Fits (tenTo d.scale) := Int128.fits_tenTo d.scale_le
  rw [ofDecimal, checked_of_fits hfits]
  exact make_eq d.mantissa_fits hfits

variable (a b : Fraction)

theorem add_eq : (Parts.of a).add (Parts.of b) = ofOption ((a.add? b).map Parts.of) := by
  have hpos := Fraction.gcd_pos (n := a.den) b.den_pos
  have hleft := divide_of_dvd a.den_fits hpos (Int.gcd_dvd_left ..)
  have hright := divide_of_dvd b.den_fits hpos (Int.gcd_dvd_right ..)
  simp only [add, Fraction.add?, Parts.of, gcd_of_pos a.den b.den_pos b.den_fits, hleft, hright,
    Result.done_bind, Result.ofOption_map_bind]
  exact checked_bind_congr fun _ => checked_bind_congr fun _ => checked_bind_congr fun hden =>
    checked_bind_congr fun hnum => make_eq hnum hden

theorem mul_eq : (Parts.of a).mul (Parts.of b) = ofOption ((a.mul? b).map Parts.of) := by
  have hpos := Fraction.gcd_pos (n := a.num) b.den_pos
  have hpos' := Fraction.gcd_pos (n := b.num) a.den_pos
  have hmax : ∀ {g : Int}, 0 < g → max g 1 = g := fun h => max_eq_left h
  simp only [mul, Fraction.mul?, Parts.of, gcd_of_pos a.num b.den_pos b.den_fits,
    gcd_of_pos b.num a.den_pos a.den_fits, hmax hpos, hmax hpos',
    divide_of_dvd a.num_fits hpos (Int.gcd_dvd_left ..),
    divide_of_dvd b.den_fits hpos (Int.gcd_dvd_right ..),
    divide_of_dvd b.num_fits hpos' (Int.gcd_dvd_left ..),
    divide_of_dvd a.den_fits hpos' (Int.gcd_dvd_right ..),
    Result.done_bind, Result.ofOption_map_bind]
  exact checked_bind_congr fun hnum => checked_bind_congr fun hden => make_eq hnum hden

theorem neg_eq : (Parts.of a).neg = ofOption (a.neg?.map Parts.of) := by
  unfold neg Fraction.neg?
  by_cases h : Fits (-a.num)
  · rw [dif_pos h]
    show checked (-a.num) >>= _ = _
    rw [checked_of_fits h]
    rfl
  · rw [dif_neg h]
    show checked (-a.num) >>= _ = _
    rw [checked_of_not_fits h]
    rfl

theorem recip_eq : (Parts.of a).recip = ofOption (a.recip?.map Parts.of) :=
  make_eq a.den_fits a.num_fits

theorem abs_eq : (Parts.of a).abs = ofOption (a.abs?.map Parts.of) := by
  unfold abs Fraction.abs?
  by_cases h : a.num < 0
  · rw [if_pos h]
    exact (if_pos h).trans (neg_eq a)
  · rw [if_neg h]
    exact if_neg h

end Parts

/-! ## Exact results -/

/-- Whether the machine finds what an operation on fractions gives, which is in lowest terms and has
the given value, and refuses where the operation gives nothing. -/
structure Gives (r : Result Parts) (o : Option Fraction) (x : ℚ) : Prop where
  same : r = ofOption (o.map Parts.of)
  exact : ∀ p, r = done p → p.IsCanonical ∧ p.value = x

theorem gives_of_eq {r : Result Parts} {o : Option Fraction} {x : ℚ}
    (h : r = ofOption (o.map Parts.of)) (hx : ∀ q, o = some q → q.value = x) : Gives r o x where
  same := h
  exact p hp := by
    rw [h, Result.ofOption_eq_done_iff, Option.map_eq_some_iff] at hp
    obtain ⟨q, hq, rfl⟩ := hp
    exact ⟨Parts.isCanonical_iff.mpr ⟨q, rfl⟩, hx q hq⟩

end LedgerGate.Word

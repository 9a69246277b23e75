import LedgerGate.Proofs.Solver.Interruption
import LedgerGate.Proofs.Solver.Refutation
import LedgerGate.Proofs.Verifier.Logic
import Mathlib.Data.Rat.Lemmas

/-!
# What the verdicts of logic mean

Besides an approval, which comes with a model, a rejection says that there is none. The verdict
is left open as soon as a predicate has no constraint: a literal is not an exact decimal, two
terms that both vary are multiplied, or a number leaves its range. A solver that may not go on
finds no solution, so nothing is approved once the work is called off.
-/

namespace LedgerGate

variable {precision : Nat} {ρ : Values}

/-! ## Terms without a linear form -/

/-- The parts of a term, of which it is one itself. -/
def Expr.parts : Expr → List Expr
  | .lit text => [.lit text]
  | .var name => [.var name]
  | .neg a => .neg a :: a.parts
  | .add a b => .add a b :: (a.parts ++ b.parts)
  | .sub a b => .sub a b :: (a.parts ++ b.parts)
  | .mul a b => .mul a b :: (a.parts ++ b.parts)

/-- Whether the value of a term depends on the values of its variables. -/
def Expr.Varies (precision : Nat) (e : Expr) : Prop :=
  ∃ ρ σ : Values, e.value? precision ρ ≠ e.value? precision σ

/-- What keeps a term from having a linear form. -/
inductive Expr.Defective (precision : Nat) : Expr → Prop
  | malformed {text : String} {f : Fault} (h : Decimal.parse text precision = .error f) :
    Defective precision (.lit text)
  | nonlinear {a b : Expr} (ha : a.Varies precision) (hb : b.Varies precision) :
    Defective precision (.mul a b)
  /-- What is left when all variables are zero is no quotient of two numbers in range. -/
  | overflow {e : Expr} {x : ℚ} (h : e.value? precision 0 = some x)
      (hx : ¬ (Int128.Fits x.num ∧ Int128.Fits x.den)) : Defective precision e

theorem Fraction.fits_value (q : Fraction) :
    Int128.Fits q.value.num ∧ Int128.Fits q.value.den := by
  have hcoprime : Nat.Coprime q.num.natAbs q.den.natAbs := q.reduced
  rw [value, Rat.num_div_eq_of_coprime q.den_pos hcoprime,
    Rat.den_div_eq_of_coprime q.den_pos hcoprime]
  exact ⟨q.num_fits, q.den_fits⟩

namespace Constraint

/-- The value of a term whose form is constant does not depend on variables. -/
theorem not_varies_of_isConstant {e : Expr} {l : Linear} (h : ofExpr precision e = .ok l)
    (hl : l.isConstant = true) : ¬ e.Varies precision := by
  rintro ⟨ρ, σ, hne⟩
  apply hne
  rw [value?_of_ofExpr h, value?_of_ofExpr h, Linear.value_of_isConstant hl,
    Linear.value_of_isConstant hl]

theorem isConstant_of_product {x y l : Linear} (h : product x y = .ok l) :
    x.isConstant = true ∨ y.isConstant = true := by
  unfold product at h
  split at h
  · next hx => exact .inl hx
  · split at h
    · next hy => exact .inr hy
    · cases h

theorem not_defective_of_ofExpr {e : Expr} {l : Linear} (h : ofExpr precision e = .ok l) :
    ¬ e.Defective precision := by
  intro hdefect
  cases hdefect with
  | malformed hparse =>
    rw [ofExpr, ofLiteral, hparse] at h
    cases h
  | nonlinear ha hb =>
    obtain ⟨x, y, hx, hy, hproduct⟩ := both_ok h
    rcases isConstant_of_product hproduct with hconst | hconst
    · exact not_varies_of_isConstant hx hconst ha
    · exact not_varies_of_isConstant hy hconst hb
  | overflow hvalue hrange =>
    rw [value?_of_ofExpr h, Linear.value_at_zero] at hvalue
    rw [← Option.some.inj hvalue] at hrange
    exact hrange l.constant.fits_value

/-- Every part of a term with a linear form has one. -/
theorem exists_of_mem_parts {e t : Expr} {l : Linear} (h : ofExpr precision e = .ok l)
    (ht : t ∈ e.parts) : ∃ k, ofExpr precision t = .ok k := by
  induction e generalizing l with
  | lit text | var name =>
    obtain rfl := List.mem_singleton.mp ht
    exact ⟨l, h⟩
  | neg a ih =>
    rcases List.mem_cons.mp ht with rfl | ht
    · exact ⟨l, h⟩
    · rw [ofExpr] at h
      split at h
      · cases h
      · next x hx => exact ih hx ht
  | add a b iha ihb | sub a b iha ihb | mul a b iha ihb =>
    rcases List.mem_cons.mp ht with rfl | ht
    · exact ⟨l, h⟩
    · obtain ⟨x, y, hx, hy, -⟩ := both_ok h
      rcases List.mem_append.mp ht with ht | ht
      · exact iha hx ht
      · exact ihb hy ht

/-- The two terms of a predicate with a constraint have linear forms. -/
theorem exists_of_ofPredicate {p : Predicate} {k : Constraint}
    (h : ofPredicate precision p = .ok k) :
    ∃ x y, ofExpr precision p.lhs = .ok x ∧ ofExpr precision p.rhs = .ok y := by
  unfold ofPredicate at h
  split at h
  · cases h
  · next x hx =>
    split at h
    · cases h
    · next y hy => exact ⟨x, y, hx, hy⟩

/-- A predicate with a defective part has no constraint. -/
theorem ofPredicate_of_defective {p : Predicate} {t : Expr} (ht : t ∈ p.lhs.parts ++ p.rhs.parts)
    (hdefect : t.Defective precision) : ∃ e, ofPredicate precision p = .error e := by
  cases h : ofPredicate precision p with
  | error e => exact ⟨e, rfl⟩
  | ok k =>
    obtain ⟨x, y, hx, hy⟩ := exists_of_ofPredicate h
    obtain ⟨l, hl⟩ : ∃ l, ofExpr precision t = .ok l := by
      rcases List.mem_append.mp ht with ht | ht
      · exact exists_of_mem_parts hx ht
      · exact exists_of_mem_parts hy ht
    exact absurd hdefect (not_defective_of_ofExpr hl)

/-- Predicates one of which has no constraint have none together. -/
theorem ofPredicates_of_error {ps : List Predicate} {p : Predicate} {e : LinearError}
    (hp : p ∈ ps) (h : ofPredicate precision p = .error e) :
    ∃ e', ofPredicates precision ps = .error e' := by
  induction ps with
  | nil => exact absurd hp List.not_mem_nil
  | cons q r ih =>
    unfold ofPredicates
    split
    · next e' _ => exact ⟨e', rfl⟩
    · next k hk =>
      rcases List.mem_cons.mp hp with rfl | hr
      · cases hk.symm.trans h
      · obtain ⟨e', he'⟩ := ih hr
        rw [he']
        exact ⟨e', rfl⟩

end Constraint

/-! ## Verdicts -/

namespace Logic

variable {maxConstraints : Nat} {c : Context}

theorem ofAnswer_reject {a : Solver.Answer} (h : (ofAnswer a).decision = .reject) :
    ∃ w, a = .unsat w := by
  cases a with
  | sat n m => cases h
  | unsat w => exact ⟨w, rfl⟩
  | unknown r => cases h

/-- What logic rejects has no model. -/
theorem not_isModel_of_reject (h : (verify maxConstraints c).decision = .reject) :
    ¬ IsModel c ρ := by
  intro hρ
  obtain ⟨cs, hcs, hanswer⟩ := exists_query (by rw [h]; nofun)
  rw [hanswer] at h
  obtain ⟨w, hunsat⟩ := ofAnswer_reject h
  exact Solver.check_ne_unsat ((solves_query_iff hcs).mpr hρ) w hunsat

/-- Without a constraint for each predicate the verdict is left open. -/
theorem uncertain_of_ofPredicate {p : Predicate} {e : Constraint.LinearError}
    (hp : p ∈ c.intent.predicates) (h : Constraint.ofPredicate c.precision p = .error e) :
    (verify maxConstraints c).decision = .uncertain := by
  by_contra hdecided
  obtain ⟨cs, hcs, -⟩ := exists_query hdecided
  obtain ⟨e', he'⟩ := Constraint.ofPredicates_of_error hp h
  rw [query, he'] at hcs
  cases hcs

theorem not_approve_of_cancelled (h : c.cancelled.isOn .start = true) :
    (verify maxConstraints c).decision ≠ .approve := by
  intro happrove
  obtain ⟨cs, -, hanswer⟩ := exists_query (by rw [happrove]; nofun)
  rw [hanswer] at happrove
  obtain ⟨n, m, hsat⟩ := ofAnswer_approve happrove
  refine Solver.check_ne_sat ?_ hsat
  show c.watch.seen .start ≠ .running
  intro hseen
  have hoff : c.cancelled.isOn .start = false := (Watch.seen_eq_running_iff.mp hseen).1
  exact Bool.false_ne_true (hoff.symm.trans h)

/-- What a verdict of logic says, whatever the bound on the solver's rows: an approval that the
intent has a model, a rejection that it has none. A predicate without a constraint leaves the
verdict open, and so does one with a defective part. Nothing is approved once the work is
called off. -/
theorem isRight_verify (maxConstraints : Nat) (c : Context) :
    ((verify maxConstraints c).decision = .approve → ∃ ρ, IsModel c ρ) ∧
    ((verify maxConstraints c).decision = .reject → ¬ ∃ ρ, IsModel c ρ) ∧
    (∀ p ∈ c.intent.predicates,
      (∀ e, Constraint.ofPredicate c.precision p = .error e →
        (verify maxConstraints c).decision = .uncertain) ∧
      (∀ t ∈ p.lhs.parts ++ p.rhs.parts, t.Defective c.precision →
        (verify maxConstraints c).decision = .uncertain)) ∧
    (c.cancelled.isOn .start = true → (verify maxConstraints c).decision ≠ .approve) := by
  refine ⟨exists_of_approve, ?_, ?_, not_approve_of_cancelled⟩
  · rintro hreject ⟨ρ, hρ⟩
    exact not_isModel_of_reject hreject hρ
  · intro p hp
    refine ⟨fun e he => uncertain_of_ofPredicate hp he, fun t ht hdefect => ?_⟩
    obtain ⟨e, he⟩ := Constraint.ofPredicate_of_defective ht hdefect
    exact uncertain_of_ofPredicate hp he

/-- Predicates about an account with a balance of one hundred. -/
def aboutAlice (ps : List Predicate) : Context where
  intent := .ofPredicates "question" ps []
  balances := .ofList [("alice", .ofInt64 100)]
  precision := 28
  cancelled := .never
  deadline := .never

/-- A payment of less than the balance, which comes in two equal parts. -/
def halvedPayment : List Predicate :=
  [⟨.add (.var "part") (.var "part"), .eq, .lit "3"⟩,
    ⟨.sub (.var "alice.balance") (.var "part"), .gt, .lit "98"⟩]

/-- A payment of less than the balance that is the whole of it. -/
def wholePayment : List Predicate :=
  [⟨.var "alice.balance", .gt, .var "payment"⟩, ⟨.lit "100.0", .eq, .var "payment"⟩]

/-- A literal that is no exact decimal. -/
def roundedLiteral : Expr := .lit "1e3"

/-- A square of a variable. -/
def squaredPayment : Expr := .mul (.var "payment") (.var "payment")

/-- A product of literals that is out of range. -/
def hugeProduct : Expr := .mul (.lit "100000000000000000000") (.lit "-9000000000000000000")

/-- All kinds of verdicts. -/
theorem isRight_verify_aboutAlice :
    ((verify 4096 (aboutAlice halvedPayment)).decision = .approve ∧
      ∃ ρ, IsModel (aboutAlice halvedPayment) ρ) ∧
    ((verify 4096 (aboutAlice wholePayment)).decision = .reject ∧
      ¬ ∃ ρ, IsModel (aboutAlice wholePayment) ρ) ∧
    (∀ t ∈ [roundedLiteral, squaredPayment, hugeProduct], t.Defective 28 ∧
      (verify 4096 (aboutAlice [⟨.var "total", .le, .neg t⟩])).decision = .uncertain) ∧
    (verify 4096 { aboutAlice halvedPayment with cancelled := .always }).decision ≠ .approve := by
  have happrove : (verify 4096 (aboutAlice halvedPayment)).decision = .approve := by
    decide +kernel
  have hreject : (verify 4096 (aboutAlice wholePayment)).decision = .reject := by
    decide +kernel
  have hrounded : roundedLiteral.Defective 28 := .malformed rfl
  have hvaries : (Expr.var "payment").Varies 28 := ⟨0, 1, by simp [Expr.value?]⟩
  have hsquare : squaredPayment.Defective 28 := .nonlinear hvaries hvaries
  have hhuge : hugeProduct.Defective 28 :=
    .overflow (by rfl) (by decide +kernel)
  have hdefective : ∀ t ∈ [roundedLiteral, squaredPayment, hugeProduct], t.Defective 28 := by
    simp only [List.forall_mem_cons]
    exact ⟨hrounded, hsquare, hhuge, fun t ht => absurd ht List.not_mem_nil⟩
  refine ⟨⟨happrove, (isRight_verify 4096 _).1 happrove⟩,
    ⟨hreject, (isRight_verify 4096 _).2.1 hreject⟩, fun t ht => ?_,
    (isRight_verify 4096 _).2.2.2 rfl⟩
  have hdefect := hdefective t ht
  have hpart : t ∈ (Expr.var "total").parts ++ (Expr.neg t).parts := by
    have hself : t ∈ t.parts := by cases t <;> exact List.mem_cons_self
    exact List.mem_append_right _ (List.mem_cons_of_mem _ hself)
  exact ⟨hdefect, ((isRight_verify 4096 (aboutAlice [⟨.var "total", .le, .neg t⟩])).2.2.1 _
    List.mem_cons_self).2 t hpart hdefect⟩

end Logic
end LedgerGate

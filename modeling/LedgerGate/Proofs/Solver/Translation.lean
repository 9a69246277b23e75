import LedgerGate.Proofs.Solver.Constraint

/-!
# Constraints of predicates

A term that has a linear form has the value of that form, and a predicate that has a constraint
is true exactly where the constraint holds (`Constraint.holds_ofPredicate_iff`).
-/

namespace LedgerGate.Constraint

variable {precision : Nat} {ρ : Values}

theorem orOverflow_ok {α : Type} {o : Option α} {a : α} (h : orOverflow o = .ok a) :
    o = some a := by
  cases o with
  | none => exact absurd h nofun
  | some b => exact congrArg some (Except.ok.inj h)

theorem both_ok {a b : Except LinearError Linear} {f : Linear → Linear → Except LinearError Linear}
    {l : Linear} (h : both a b f = .ok l) : ∃ x y, a = .ok x ∧ b = .ok y ∧ f x y = .ok l := by
  cases a with
  | error e => exact absurd h nofun
  | ok x =>
    cases b with
    | error e => exact absurd h nofun
    | ok y => exact ⟨x, y, rfl, rfl, h⟩

theorem value_product {x y l : Linear} (h : product x y = .ok l) :
    l.value ρ = x.value ρ * y.value ρ := by
  unfold product at h
  split at h
  · next hx =>
    rw [Linear.value_scale? (orOverflow_ok h), Linear.value_of_isConstant hx, mul_comm]
  · split at h
    · next hy => rw [Linear.value_scale? (orOverflow_ok h), Linear.value_of_isConstant hy]
    · exact absurd h nofun

/-- A term with a linear form has its value. -/
theorem value?_of_ofExpr {e : Expr} {l : Linear} (h : ofExpr precision e = .ok l) :
    e.value? precision ρ = some (l.value ρ) := by
  induction e generalizing l with
  | lit text =>
    rw [ofExpr, ofLiteral] at h
    rw [Expr.value?]
    split at h
    · cases h
    · next d hd =>
      obtain ⟨q, hq, rfl⟩ := Option.map_eq_some_iff.mp (orOverflow_ok h)
      rw [hd, Linear.value_ofFraction, Fraction.value_ofDecimal? hq]
      rfl
  | var name =>
    obtain rfl := Except.ok.inj h
    rw [Expr.value?, Linear.value_ofVariable]
  | neg a ih =>
    rw [ofExpr] at h
    split at h
    · cases h
    · next x hx =>
      rw [Expr.value?, ih hx, Linear.value_scale? (orOverflow_ok h), Fraction.value_minusOne,
        mul_neg_one]
      rfl
  | add a b iha ihb =>
    obtain ⟨x, y, hx, hy, h⟩ := both_ok h
    rw [Expr.value?, iha hx, ihb hy, Linear.value_add? (orOverflow_ok h)]
    rfl
  | sub a b iha ihb =>
    obtain ⟨x, y, hx, hy, h⟩ := both_ok h
    rw [Expr.value?, iha hx, ihb hy, Linear.value_sub? (orOverflow_ok h)]
    rfl
  | mul a b iha ihb =>
    obtain ⟨x, y, hx, hy, h⟩ := both_ok h
    rw [Expr.value?, iha hx, ihb hy, value_product h]
    rfl

theorem relate_ok {r : Relation} {l : Option Linear} {c : Constraint} (h : relate r l = .ok c) :
    ∃ d, l = some d ∧ c = ⟨d, r⟩ := by
  unfold relate at h
  split at h
  · next d => exact ⟨d, rfl, (Except.ok.inj h).symm⟩
  · exact absurd h nofun

/-- The constraint of a comparison holds exactly where the values compare that way. -/
theorem holds_ofComparison_iff {op : Comparison} {x y : Linear} {c : Constraint}
    (h : ofComparison op x y = .ok c) : c.Holds ρ ↔ op.Holds (x.value ρ) (y.value ρ) := by
  unfold ofComparison at h
  split at h
  · exact absurd h nofun
  · next d hd =>
    have hsub := Linear.value_sub? (ρ := ρ) hd
    cases op with
    | eq =>
      obtain rfl := Except.ok.inj h
      rw [Holds, hsub]
      exact sub_eq_zero
    | ne =>
      obtain rfl := Except.ok.inj h
      rw [Holds, hsub]
      exact sub_ne_zero
    | lt =>
      obtain rfl := Except.ok.inj h
      rw [Holds, hsub]
      exact sub_neg
    | le =>
      obtain rfl := Except.ok.inj h
      rw [Holds, hsub]
      exact sub_nonpos
    | gt =>
      obtain ⟨e, he, rfl⟩ := relate_ok h
      rw [Holds, Linear.value_sub? he]
      exact sub_neg
    | ge =>
      obtain ⟨e, he, rfl⟩ := relate_ok h
      rw [Holds, Linear.value_sub? he]
      exact sub_nonpos

/-- A predicate is true exactly where its constraint holds. -/
theorem holds_ofPredicate_iff {p : Predicate} {c : Constraint}
    (h : ofPredicate precision p = .ok c) : c.Holds ρ ↔ p.Holds precision ρ := by
  unfold ofPredicate at h
  split at h
  · exact absurd h nofun
  · next x hx =>
    split at h
    · exact absurd h nofun
    · next y hy =>
      rw [holds_ofComparison_iff h, Predicate.Holds, value?_of_ofExpr hx, value?_of_ofExpr hy]
      simp

theorem solves_ofPredicates_iff {ps : List Predicate} {cs : List Constraint}
    (h : ofPredicates precision ps = .ok cs) :
    Solves ρ cs ↔ ∀ p ∈ ps, p.Holds precision ρ := by
  induction ps generalizing cs with
  | nil =>
    obtain rfl := Except.ok.inj h
    exact iff_of_true solves_nil fun p hp => absurd hp List.not_mem_nil
  | cons p r ih =>
    unfold ofPredicates at h
    split at h
    · exact absurd h nofun
    · next c hc =>
      split at h
      · exact absurd h nofun
      · next ds hds =>
        obtain rfl := Except.ok.inj h
        rw [solves_cons, List.forall_mem_cons, ih hds, holds_ofPredicate_iff hc]

end LedgerGate.Constraint

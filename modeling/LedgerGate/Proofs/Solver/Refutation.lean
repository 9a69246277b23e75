import LedgerGate.Proofs.Solver.Check

/-!
# The solver refutes only what has no solution

A solution of the constraints stays one through every step of elimination: the equalities that
it solves are replaced by what they say about one of its values, and a variable that is
eliminated keeps its value. So where a contradiction is found there was no solution, and both
definite answers of the solver are right (`isRight_check`).
-/

namespace LedgerGate.Solver

open Function (update)

variable {σ : Values} {cs ds : List Constraint}

/-- Whether values solve what a step of elimination leaves, which then is no contradiction. -/
def Survives (σ : Values) : Except Finding (List Constraint) → Prop
  | .ok rest => Solves σ rest
  | .error f => ∀ w, f ≠ .unsat w

/-! ## Equalities -/

/-- Where a form is zero, the variable it is solved for has the value of the solution. -/
theorem eq_value_of_solveFor? {l r : Linear} {name : String}
    (h : solveFor? l name (l.coeff name) = some r) (hl : l.value σ = 0) : σ name = r.value σ := by
  unfold solveFor? at h
  split at h
  · cases h
  · next q hq =>
    split at h
    · cases h
    · next k hk =>
      have hne : (l.coeff name).value ≠ 0 := Fraction.value_ne_zero_of_recip? hq
      have hrest : (l.erase name).value σ = -((l.coeff name).value * σ name) := by
        rw [Linear.value_erase, hl]
        ring
      rw [Linear.value_scale? h, hrest, Fraction.value_neg? hk, Fraction.value_recip? hq]
      field_simp

/-- A solution of an equality also solves the constraints in which its variable is replaced. -/
theorem solves_substituteAll {l r : Linear} {name : String}
    (hr : solveFor? l name (l.coeff name) = some r) (hl : l.value σ = 0)
    (h : substituteAll name r cs = some ds) (hσ : Solves σ cs) : Solves σ ds := by
  rw [solves_substituteAll_iff h, ← eq_value_of_solveFor? hr hl, Function.update_eq_self]
  exact hσ

/-- A solution of equalities and inequalities survives the elimination of the equalities. -/
theorem survives_dropEqualities (w : Watch) (m : Moment)
    {inequalities equalities : List Constraint} (heq : ∀ c ∈ equalities, c.relation = .eq)
    (hσ : Solves σ equalities) (hin : Solves σ inequalities) :
    Survives σ (dropEqualities w m inequalities equalities) := by
  fun_induction dropEqualities w m inequalities equalities with
  | case1 m inequalities => exact hin
  | case2 | case5 | case7 =>
    intro w hw
    cases hw
  | case3 m inequalities e es _ hnil htrivial ih =>
    exact ih (List.forall_mem_cons.mp heq).2 (solves_cons.mp hσ).2 hin
  | case4 m inequalities e es _ hnil hfalse =>
    have hconst : e.linear.isConstant = true := by
      rw [Linear.isConstant, Table.isEmpty, hnil]
      rfl
    exact absurd ((Constraint.holdsTrivially_iff hconst).mpr (solves_cons.mp hσ).1) hfalse
  | case6 m inequalities e es _ name q tail hentries r hr es' inequalities' hes' hin' ih =>
    obtain ⟨he, hes⟩ := List.forall_mem_cons.mp heq
    obtain ⟨hzero, hrest⟩ := solves_cons.mp hσ
    rw [Constraint.Holds, he] at hzero
    rw [← coeff_of_entries hentries] at hr
    apply ih
    · exact relation_substituteAll (P := (· = .eq)) hes' hes
    · exact solves_substituteAll hr hzero hes' hrest
    · exact solves_substituteAll hr hzero hin' hin

/-! ## Inequalities -/

/-- A solution survives the removal of the rows without variables. -/
theorem survives_liveRows (hσ : Solves σ cs) : Survives σ (liveRows cs) := by
  cases h : liveRows cs with
  | ok rows => exact (solves_liveRows_iff h).mpr hσ
  | error f =>
    induction cs with
    | nil => cases h
    | cons c rest ih =>
      obtain ⟨hc, hrest⟩ := solves_cons.mp hσ
      unfold liveRows at h
      split at h
      · next hconst =>
        split at h
        · exact ih hrest h
        · next hfalse => exact absurd ((Constraint.holdsTrivially_iff hconst).mpr hc) hfalse
      · split at h
        · cases h
          intro w hw
          cases hw
        · split at h
          · next g hg =>
            cases h
            exact ih hrest hg
          · cases h

/-- Inequalities with a solution are not found contradictory. -/
theorem dropInequalities_ne_unsat {b : Budget} {m : Moment} {names : List String}
    (hcs : ∀ c ∈ cs, c.relation.IsInequality) (hσ : Solves σ cs) (w : Contradiction) :
    dropInequalities b m names cs ≠ .unsat w := by
  fun_induction dropInequalities b m names cs with
  | case1 | case3 | case4 | case5 | case6 =>
    intro hw
    cases hw
  | case2 m names cs _ f hf =>
    have hlive := survives_liveRows hσ
    rw [hf] at hlive
    exact hlive w
  | case7 m names cs _ rows hrows live _ _ v hpick next hnext ih =>
    have hlive : ∀ c ∈ live, c.relation.IsInequality := by
      intro c hc
      exact relation_liveRows hrows hcs c (mem_sortRows.mp hc)
    have hsolved : Solves σ live := solves_sortRows_iff.mpr ((solves_liveRows_iff hrows).mpr hσ)
    apply ih (relation_eliminateVariable hnext hlive)
    -- The eliminated variable keeps the value that it has in the solution.
    refine (solves_eliminateVariable_iff hnext hlive).mpr ⟨σ v, ?_⟩
    rwa [Function.update_eq_self]

/-- Constraints without disequalities that have a solution are not found contradictory. -/
theorem decideConjunction_ne_unsat {b : Budget} {m : Moment} (hcs : ∀ c ∈ cs, c.relation ≠ .ne)
    (hσ : Solves σ cs) (w : Contradiction) : decideConjunction b m cs ≠ .unsat w := by
  obtain ⟨hequalities, hothers⟩ := solves_partition_iff.mp hσ
  have hrest := survives_dropEqualities b.watch m relation_of_mem_equalities hequalities hothers
  unfold decideConjunction
  dsimp only
  split
  · next f hf =>
    rw [hf] at hrest
    exact hrest w
  · next rest hok =>
    rw [hok] at hrest
    have hin := (exists_of_dropEqualities hok (isInequality_of_mem_rest hcs)
      relation_of_mem_equalities).1
    exact dropInequalities_ne_unsat hin hrest w

/-! ## Disequalities -/

theorem mem_sides {n : Nat} {s : List Bool} (h : s.length = n) : s ∈ sides n := by
  induction n generalizing s with
  | zero => rw [List.length_eq_zero_iff.mp h]; exact List.mem_singleton_self _
  | succ n ih =>
    cases s with
    | nil => exact absurd h (by simp)
    | cons b t =>
      refine List.mem_flatMap.mpr ⟨t, ih (Nat.succ.inj h), ?_⟩
      cases b <;> simp

/-- The sides of zero on which forms lie. -/
def sidesOf (σ : Values) (forms : List Linear) : List Bool :=
  forms.map fun l => decide (0 < l.value σ)

/-- Values for which no form is zero solve the constraints of the sides on which the forms lie. -/
theorem solves_takeSides {forms : List Linear} (hforms : ∀ l ∈ forms, l.value σ ≠ 0)
    (h : takeSides forms (sidesOf σ forms) = some cs) : Solves σ cs := by
  induction forms generalizing cs with
  | nil =>
    obtain rfl := Option.some.inj h
    exact solves_nil
  | cons l r ih =>
    obtain ⟨hl, hr⟩ := List.forall_mem_cons.mp hforms
    simp only [sidesOf, List.map_cons, takeSides] at h
    split at h
    · next l' ds hl' hds =>
      obtain rfl := Option.some.inj h
      refine solves_cons.mpr ⟨?_, ih hr hds⟩
      show l'.value σ < 0
      split at hl'
      · next hpos =>
        rw [decide_eq_true_eq] at hpos
        rw [Linear.value_scale? hl', Fraction.value_minusOne]
        linarith
      · next hpos =>
        rw [decide_eq_true_eq, not_lt] at hpos
        obtain rfl := Option.some.inj hl'
        exact lt_of_le_of_ne hpos hl
    · cases h

/-- If one choice of sides is left that has a solution, or is open, then no contradiction is
found. -/
theorem tryBranches_ne_unsat {b : Budget} {unknowns tried : Nat} {base : List Constraint}
    {forms : List Linear} {open? : Option Obstacle} {last : Contradiction}
    {choices : List (List Bool)} (hforms : ∀ l ∈ forms, l.value σ ≠ 0)
    (hbase : ∀ c ∈ base, c.relation ≠ .ne) (hσ : Solves σ base)
    (hleft : sidesOf σ forms ∈ choices ∨ open?.isSome) (w : Contradiction) :
    tryBranches b unknowns base forms tried open? last choices ≠ .unsat w := by
  fun_induction tryBranches b unknowns base forms tried open? last choices with
  | case1 | case3 | case4 | case6 =>
    intro hw
    cases hw
  | case2 tried last =>
    rcases hleft with hmem | hopen
    · exact absurd hmem List.not_mem_nil
    · exact absurd hopen Bool.false_ne_true
  | case5 tried open? last s rest cs hcs c hunsat ih =>
    apply ih
    rcases hleft with hmem | hopen
    · rcases List.mem_cons.mp hmem with rfl | hmem
      · -- The branch of the solution has a solution.
        have hne : ∀ d ∈ base ++ cs, d.relation ≠ .ne := by
          refine List.forall_mem_append.mpr ⟨hbase, fun d hd => ?_⟩
          rw [relation_takeSides hcs d hd]
          intro hrel
          cases hrel
        have hsolved := solves_append.mpr ⟨hσ, solves_takeSides hforms hcs⟩
        exact absurd hunsat (decideConjunction_ne_unsat hne hsolved c)
      · exact .inl hmem
    · exact .inr hopen
  | case7 tried open? last s rest cs hcs o ho _ ih => exact ih (.inr rfl)

/-- Where all constraints hold, no disequality without variables is false, and none of the forms
that are split is zero. -/
theorem splitDisequalities_of_solves (hσ : Solves σ cs) :
    ∃ forms, splitDisequalities cs = some forms ∧ ∀ l ∈ forms, l.value σ ≠ 0 := by
  unfold splitDisequalities
  dsimp only
  split
  · next hany =>
    obtain ⟨c, hc, hfalse⟩ := List.any_eq_true.mp hany
    rw [Bool.and_eq_true, Bool.not_eq_true'] at hfalse
    obtain ⟨hconst, hfalse⟩ := hfalse
    have hholds := (Constraint.holdsTrivially_iff hconst).mpr (hσ c (List.mem_filter.mp hc).1)
    exact absurd (hfalse.symm.trans hholds) Bool.false_ne_true
  · refine ⟨_, rfl, fun l hl => ?_⟩
    obtain ⟨c, hc, rfl⟩ := List.mem_map.mp hl
    obtain ⟨hmem, hr⟩ := List.mem_filter.mp (List.mem_filter.mp hc).1
    have hne : c.relation = .ne := by simpa using hr
    have hholds := hσ c hmem
    rw [Constraint.Holds, hne] at hholds
    exact hholds

/-! ## Answers -/

/-- Whether an answer is right about constraints. An open question is no answer. -/
def Answer.IsRight (cs : List Constraint) : Answer → Prop
  | .sat _ _ => ∃ ρ, Solves ρ cs
  | .unsat _ => ∀ ρ, ¬ Solves ρ cs
  | .unknown _ => True

/-- Constraints with a solution are not found contradictory. -/
theorem check_ne_unsat {b : Budget} (hσ : Solves σ cs) (w : Contradiction) :
    check b cs ≠ .unsat w := by
  obtain ⟨forms, hforms, hne⟩ := splitDisequalities_of_solves hσ
  unfold check
  rw [hforms]
  dsimp only
  split
  · intro hw
    cases hw
  · apply tryBranches_ne_unsat hne
    · intro c hc
      simpa using (List.mem_filter.mp hc).2
    · intro c hc
      exact hσ c (List.mem_filter.mp hc).1
    · exact .inl (mem_sides (List.length_map _))

/-- What the solver answers is right, with any bounds on its work: constraints that it finds
satisfiable have a solution in the rationals, and those that it finds contradictory have none. -/
theorem isRight_check (b : Budget) (cs : List Constraint) : (check b cs).IsRight cs := by
  cases h : check b cs with
  | sat unknowns branches => exact exists_of_check h
  | unsat w => exact fun ρ hρ => check_ne_unsat hρ w h
  | unknown why => exact trivial

end LedgerGate.Solver

import LedgerGate.Proofs.Solver.Elimination
import LedgerGate.Solver.Check

/-!
# The solver finds solutions

Constraints that are answered with yes have a common solution in the rationals
(`exists_of_check`). A disequality is on one of the two sides of zero in it.
-/

namespace LedgerGate.Solver

variable {ρ : Values} {cs : List Constraint}

theorem length_of_mem_sides {n : Nat} {s : List Bool} (h : s ∈ sides n) : s.length = n := by
  induction n generalizing s with
  | zero => rw [List.mem_singleton.mp h]; rfl
  | succ n ih =>
    obtain ⟨t, ht, hs⟩ := List.mem_flatMap.mp h
    have hlen := ih ht
    simp only [List.mem_cons, List.not_mem_nil, or_false] at hs
    rcases hs with rfl | rfl <;> rw [List.length_cons, hlen]

/-- The constraints of chosen sides say that no form is zero. -/
theorem ne_zero_of_takeSides {forms : List Linear} {s : List Bool}
    (h : takeSides forms s = some cs) (hlen : s.length = forms.length) (hρ : Solves ρ cs) :
    ∀ l ∈ forms, l.value ρ ≠ 0 := by
  induction forms generalizing s cs with
  | nil => exact fun l hl => absurd hl List.not_mem_nil
  | cons l r ih =>
    match s with
    | [] => exact absurd hlen (by simp)
    | b :: t =>
      simp only [takeSides] at h
      split at h
      · next l' ds hl' hds =>
        obtain rfl := Option.some.inj h
        obtain ⟨hneg, hrest⟩ := solves_cons.mp hρ
        refine List.forall_mem_cons.mpr ⟨?_, ih hds (Nat.succ.inj hlen) hrest⟩
        have hneg : l'.value ρ < 0 := hneg
        split at hl'
        · rw [Linear.value_scale? hl', Fraction.value_minusOne] at hneg
          intro hz
          rw [hz, zero_mul] at hneg
          exact lt_irrefl _ hneg
        · obtain rfl := Option.some.inj hl'
          exact hneg.ne
      · exact absurd h nofun

theorem relation_takeSides {forms : List Linear} {s : List Bool} (h : takeSides forms s = some cs) :
    ∀ c ∈ cs, c.relation = .lt := by
  induction forms generalizing s cs with
  | nil =>
    obtain rfl := Option.some.inj h
    exact fun c hc => absurd hc List.not_mem_nil
  | cons l r ih =>
    match s with
    | [] =>
      obtain rfl := Option.some.inj h
      exact fun c hc => absurd hc List.not_mem_nil
    | b :: t =>
      simp only [takeSides] at h
      split at h
      · next hds =>
        obtain rfl := Option.some.inj h
        exact List.forall_mem_cons.mpr ⟨rfl, ih hds⟩
      · exact absurd h nofun

/-- Disequalities hold when none of the forms that are split is zero. -/
theorem holds_of_splitDisequalities {forms : List Linear} (h : splitDisequalities cs = some forms)
    (hforms : ∀ l ∈ forms, l.value ρ ≠ 0) : ∀ c ∈ cs, c.relation = .ne → c.Holds ρ := by
  unfold splitDisequalities at h
  dsimp only at h
  split at h
  · exact absurd h nofun
  · next hany =>
    obtain rfl := Option.some.inj h
    intro c hc hr
    have hmem : c ∈ cs.filter fun c => c.relation = .ne :=
      List.mem_filter.mpr ⟨hc, by simpa using hr⟩
    by_cases hconst : c.linear.isConstant = true
    · refine (Constraint.holdsTrivially_iff hconst).mp ?_
      by_contra hfalse
      exact hany (List.any_eq_true.mpr ⟨c, hmem, by simp [hconst, hfalse]⟩)
    · rw [Constraint.Holds, hr]
      exact hforms _ (List.mem_map_of_mem (List.mem_filter.mpr ⟨hmem, by simp [hconst]⟩))

/-- A branch that is answered with yes has a solution. -/
theorem exists_of_tryBranches {b : Budget} {unknowns tried n m : Nat} {base : List Constraint}
    {forms : List Linear} {open? : Option Obstacle} {last : Contradiction}
    {choices : List (List Bool)}
    (h : tryBranches b unknowns base forms tried open? last choices = .sat n m)
    (hbase : ∀ c ∈ base, c.relation ≠ .ne) :
    ∃ s ∈ choices, ∃ cs ρ, takeSides forms s = some cs ∧ Solves ρ base ∧ Solves ρ cs := by
  fun_induction tryBranches b unknowns base forms tried open? last choices with
  | case4 tried open? last s rest cs hcs hsat =>
    obtain ⟨ρ, hρ⟩ := exists_of_decideConjunction hsat (List.forall_mem_append.mpr
      ⟨hbase, fun c hc => by rw [relation_takeSides hcs c hc]; exact nofun⟩)
    obtain ⟨hρ, hρ'⟩ := solves_append.mp hρ
    exact ⟨s, List.mem_cons_self, cs, ρ, hcs, hρ, hρ'⟩
  | case5 _ _ _ _ _ _ _ _ _ ih | case7 _ _ _ _ _ _ _ _ _ _ ih =>
    obtain ⟨s, hs, hrest⟩ := ih h
    exact ⟨s, List.mem_cons_of_mem _ hs, hrest⟩
  | _ => exact absurd h nofun

/-- Constraints that are answered with yes have a solution. -/
theorem exists_of_check {b : Budget} {n m : Nat} (h : check b cs = .sat n m) :
    ∃ ρ, Solves ρ cs := by
  unfold check at h
  split at h
  · exact absurd h nofun
  · next forms hforms =>
    split at h
    · exact absurd h nofun
    · obtain ⟨s, hs, ds, ρ, hds, hbase, hsides⟩ := exists_of_tryBranches h fun c hc => by
        simpa using (List.mem_filter.mp hc).2
      have hne := ne_zero_of_takeSides hds (length_of_mem_sides hs) hsides
      refine ⟨ρ, fun c hc => ?_⟩
      by_cases hr : c.relation = .ne
      · exact holds_of_splitDisequalities hforms hne c hc hr
      · exact hbase c (List.mem_filter.mpr ⟨hc, by simpa using hr⟩)

end LedgerGate.Solver

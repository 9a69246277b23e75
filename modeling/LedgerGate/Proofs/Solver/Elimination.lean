import LedgerGate.Proofs.Solver.Constraint
import LedgerGate.Solver.Elimination

/-!
# Elimination finds solutions

Each step of elimination keeps what can be solved. A solved equality gives the value of its
variable in terms of the others. For a variable that is eliminated from inequalities there is a
value between its lower and its upper bounds as soon as the combinations of the bounds hold
(`solves_eliminateVariable_iff`). So a question that is answered with yes has a solution
(`exists_of_decideConjunction`).
-/

namespace LedgerGate.Solver

open Function (update)

variable {ρ : Values} {name : String} {cs : List Constraint}

/-! ## Equalities -/

theorem value_solveFor? {l r : Linear} (h : solveFor? l name (l.coeff name) = some r) :
    l.value (update ρ name (r.value ρ)) = 0 := by
  unfold solveFor? at h
  split at h
  · exact absurd h nofun
  · next q hq =>
    split at h
    · exact absurd h nofun
    · next k hk =>
      have hne := Fraction.value_ne_zero_of_recip? hq
      rw [Linear.value_with, Linear.value_scale? h, Fraction.value_neg? hk,
        Fraction.value_recip? hq]
      field_simp
      ring

theorem coeff_of_entries {l : Linear} {q : Fraction} {ts : List (String × Fraction)}
    (h : l.coeffs.entries = (name, q) :: ts) : l.coeff name = q := by
  rw [Linear.coeff_eq_lookup, h, Table.lookup, if_pos rfl, Option.getD_some]

/-- Constraints with a variable replaced hold where the variable has the value of the form. -/
theorem solves_substituteAll_iff {r : Linear} {ds : List Constraint}
    (h : substituteAll name r cs = some ds) :
    Solves ρ ds ↔ Solves (update ρ name (r.value ρ)) cs := by
  induction cs generalizing ds with
  | nil =>
    obtain rfl := Option.some.inj h
    exact iff_of_true solves_nil solves_nil
  | cons c rest ih =>
    simp only [substituteAll] at h
    split at h
    · next l t hl ht =>
      obtain rfl := Option.some.inj h
      rw [solves_cons, solves_cons, ih ht, Constraint.Holds, Constraint.Holds,
        Linear.value_substitute? hl]
    · cases h

theorem relation_substituteAll {r : Linear} {ds : List Constraint} {P : Relation → Prop}
    (h : substituteAll name r cs = some ds) (hcs : ∀ c ∈ cs, P c.relation) :
    ∀ c ∈ ds, P c.relation := by
  induction cs generalizing ds with
  | nil =>
    obtain rfl := Option.some.inj h
    exact hcs
  | cons c rest ih =>
    obtain ⟨hc, hrest⟩ := List.forall_mem_cons.mp hcs
    simp only [substituteAll] at h
    split at h
    · next l t _ ht =>
      obtain rfl := Option.some.inj h
      exact List.forall_mem_cons.mpr ⟨hc, ih ht hrest⟩
    · cases h

/-- What is left when equalities are dropped are inequalities, and a solution of them extends to
one of everything. -/
theorem exists_of_dropEqualities {w : Watch} {m : Moment}
    {inequalities equalities rest : List Constraint}
    (h : dropEqualities w m inequalities equalities = .ok rest)
    (hin : ∀ c ∈ inequalities, c.relation.IsInequality) (heq : ∀ c ∈ equalities, c.relation = .eq) :
    (∀ c ∈ rest, c.relation.IsInequality) ∧
      ∀ ρ, Solves ρ rest → ∃ σ, Solves σ equalities ∧ Solves σ inequalities := by
  fun_induction dropEqualities w m inequalities equalities with
  | case1 m inequalities =>
    obtain rfl := Except.ok.inj h
    exact ⟨hin, fun ρ hρ => ⟨ρ, solves_nil, hρ⟩⟩
  | case3 m inequalities e es _ hnil htrivial ih =>
    obtain ⟨-, hes⟩ := List.forall_mem_cons.mp heq
    have hconst : e.linear.isConstant = true := by
      rw [Linear.isConstant, Table.isEmpty, hnil]; rfl
    obtain ⟨hrest, hsolve⟩ := ih h hin hes
    refine ⟨hrest, fun ρ hρ => ?_⟩
    obtain ⟨σ, hσ, hσ'⟩ := hsolve ρ hρ
    exact ⟨σ, solves_cons.mpr ⟨(Constraint.holdsTrivially_iff hconst).mp htrivial, hσ⟩, hσ'⟩
  | case6 m inequalities e es _ name q tail hentries r hr es' inequalities' hes' hin' ih =>
    obtain ⟨he, hes⟩ := List.forall_mem_cons.mp heq
    obtain ⟨hrest, hsolve⟩ := ih h (relation_substituteAll hin' hin)
      (relation_substituteAll (P := (· = .eq)) hes' hes)
    refine ⟨hrest, fun ρ hρ => ?_⟩
    obtain ⟨σ, hσ, hσ'⟩ := hsolve ρ hρ
    rw [← coeff_of_entries hentries] at hr
    refine ⟨update σ name (r.value σ), solves_cons.mpr ⟨?_, ?_⟩, ?_⟩
    · rw [Constraint.Holds, he]
      exact value_solveFor? hr
    · exact (solves_substituteAll_iff hes').mp hσ
    · exact (solves_substituteAll_iff hin').mp hσ'
  | _ => cases h

theorem dropEqualities_ne_sat {w : Watch} {m : Moment} {inequalities equalities : List Constraint} :
    dropEqualities w m inequalities equalities ≠ .error .sat := by
  fun_induction dropEqualities w m inequalities equalities with
  | case3 _ _ _ _ _ _ _ ih => exact ih
  | case6 _ _ _ _ _ _ _ _ _ _ _ _ _ _ _ ih => exact ih
  | _ => exact nofun

/-! ## Bounds of a variable -/

/-- Between lower and upper bounds, some of them strict, there is a number as soon as there is
one between any two of them. -/
theorem exists_between {ι : Type} {lower upper : List ι} (bound : ι → ℚ) (strict : ι → Prop)
    (h : ∀ l ∈ lower, ∀ u ∈ upper,
      bound l ≤ bound u ∧ (strict l ∨ strict u → bound l < bound u)) :
    ∃ x, (∀ l ∈ lower, bound l ≤ x ∧ (strict l → bound l < x)) ∧
      ∀ u ∈ upper, x ≤ bound u ∧ (strict u → x < bound u) := by
  have hmax : lower ≠ [] → ∃ m ∈ lower, ∀ l ∈ lower, bound l ≤ bound m := fun hne =>
    Set.exists_max_image _ bound (List.finite_toSet lower) (List.exists_mem_of_ne_nil _ hne)
  have hmin : upper ≠ [] → ∃ m ∈ upper, ∀ u ∈ upper, bound m ≤ bound u := fun hne =>
    Set.exists_min_image _ bound (List.finite_toSet upper) (List.exists_mem_of_ne_nil _ hne)
  by_cases hl : lower = []
  · subst hl
    by_cases hu : upper = []
    · subst hu
      exact ⟨0, by simp, by simp⟩
    · obtain ⟨m, -, hm⟩ := hmin hu
      refine ⟨bound m - 1, by simp, fun u hu => ?_⟩
      have := hm u hu
      exact ⟨by linarith, fun _ => by linarith⟩
  · obtain ⟨m, hmem, hm⟩ := hmax hl
    by_cases hu : upper = []
    · subst hu
      refine ⟨bound m + 1, fun l hl => ?_, by simp⟩
      have := hm l hl
      exact ⟨by linarith, fun _ => by linarith⟩
    · obtain ⟨n, nmem, hn⟩ := hmin hu
      -- The middle lies strictly inside unless the greatest lower bound is the least upper one,
      -- and then neither of them is strict.
      have hmn := (h m hmem n nmem).1
      refine ⟨(bound m + bound n) / 2, fun l hl => ?_, fun u hu => ?_⟩
      · have hlm := hm l hl
        refine ⟨by linarith, fun hs => ?_⟩
        have := (h l hl n nmem).2 (.inl hs)
        linarith
      · have hnu := hn u hu
        refine ⟨by linarith, fun hs => ?_⟩
        have := (h m hmem u hu).2 (.inr hs)
        linarith

/-- Where a row stops a variable in which it is not constant, given the others. -/
def bound (ρ : Values) (name : String) (c : Constraint) : ℚ :=
  -(c.linear.erase name).value ρ / (c.linear.coeff name).value

/-- A row in terms of its bound. -/
theorem value_eq_mul_sub_bound {c : Constraint} (h : (c.linear.coeff name).value ≠ 0) (x : ℚ) :
    c.linear.value (update ρ name x) = (c.linear.coeff name).value * (x - bound ρ name c) := by
  rw [Linear.value_with, bound]
  field_simp
  ring

/-- A row in which a variable has a positive coefficient bounds it from above. -/
theorem holds_iff_le_bound {c : Constraint} (hc : c.relation.IsInequality)
    (h : 0 < (c.linear.coeff name).value) (x : ℚ) :
    c.Holds (update ρ name x) ↔
      x ≤ bound ρ name c ∧ (c.relation = .lt → x < bound ρ name c) := by
  rw [Constraint.Holds, value_eq_mul_sub_bound h.ne', mul_comm, Relation.holds_mul_iff h]
  rcases hc with hr | hr
  · rw [hr]
    simp [Relation.Holds]
  · rw [hr]
    simpa [Relation.Holds] using le_of_lt

/-- A row in which a variable has a negative coefficient bounds it from below. -/
theorem holds_iff_bound_le {c : Constraint} (hc : c.relation.IsInequality)
    (h : (c.linear.coeff name).value < 0) (x : ℚ) :
    c.Holds (update ρ name x) ↔
      bound ρ name c ≤ x ∧ (c.relation = .lt → bound ρ name c < x) := by
  rw [Constraint.Holds, value_eq_mul_sub_bound h.ne, ← neg_mul_neg, mul_comm,
    Relation.holds_mul_iff (neg_pos.mpr h), neg_sub]
  rcases hc with hr | hr
  · rw [hr]
    simp [Relation.Holds]
  · rw [hr]
    simpa [Relation.Holds] using le_of_lt

/-- The steps by which two bounds of a variable are combined. -/
theorem combine?_eq_some {u l d : Constraint} (h : combine? name u l = some d) :
    ∃ k a b s, (l.linear.coeff name).abs? = some k ∧ u.linear.scale? k = some a ∧
      l.linear.scale? (u.linear.coeff name) = some b ∧ a.add? b = some s ∧
      d = ⟨s.erase name, if u.relation = .lt ∨ l.relation = .lt then .lt else .le⟩ := by
  unfold combine? at h
  split at h
  · exact absurd h nofun
  · next k hk =>
    split at h
    · next a b ha hb =>
      split at h
      · next s hs => exact ⟨k, a, b, s, hk, ha, hb, hs, (Option.some.inj h).symm⟩
      · exact absurd h nofun
    · exact absurd h nofun

/-- A variable with a negative coefficient in the lower bound cancels out. -/
theorem value_combine? {u l d : Constraint} (h : combine? name u l = some d)
    (hneg : (l.linear.coeff name).value < 0) : d.linear.value ρ =
      u.linear.value ρ * |(l.linear.coeff name).value| +
        l.linear.value ρ * (u.linear.coeff name).value := by
  obtain ⟨k, a, b, s, hk, ha, hb, hs, rfl⟩ := combine?_eq_some h
  have hsum : ∀ σ, s.value σ = u.linear.value σ * |(l.linear.coeff name).value| +
      l.linear.value σ * (u.linear.coeff name).value := fun σ => by
    rw [Linear.value_add? hs, Linear.value_scale? ha, Linear.value_scale? hb,
      Fraction.value_abs? hk]
  have hzero : (s.coeff name).value = 0 := by
    rw [Linear.value_coeff s name ρ, hsum, hsum, abs_of_neg hneg, Linear.value_with,
      Linear.value_with, Linear.value_with, Linear.value_with]
    ring
  rw [Linear.value_erase, hzero, zero_mul, sub_zero, hsum]

/-- The combination of an upper and a lower bound says that the one is not above the other. -/
theorem holds_combine?_iff {u l d : Constraint} (h : combine? name u l = some d)
    (hu : u.relation.IsInequality) (hl : l.relation.IsInequality)
    (hpos : 0 < (u.linear.coeff name).value) (hneg : (l.linear.coeff name).value < 0) :
    d.Holds ρ ↔ bound ρ name l ≤ bound ρ name u ∧
      (l.relation = .lt ∨ u.relation = .lt → bound ρ name l < bound ρ name u) := by
  have hmul : 0 < (u.linear.coeff name).value * |(l.linear.coeff name).value| :=
    mul_pos hpos (abs_pos.mpr hneg.ne)
  have hvalue : d.linear.value ρ = (bound ρ name l - bound ρ name u) *
      ((u.linear.coeff name).value * |(l.linear.coeff name).value|) := by
    have hvu := value_eq_mul_sub_bound (ρ := ρ) hpos.ne' (ρ name)
    have hvl := value_eq_mul_sub_bound (ρ := ρ) hneg.ne (ρ name)
    rw [Function.update_eq_self] at hvu hvl
    rw [value_combine? h hneg, hvu, hvl, abs_of_neg hneg]
    ring
  obtain ⟨k, a, b, s, -, -, -, -, rfl⟩ := combine?_eq_some h
  rw [Constraint.Holds, hvalue, Relation.holds_mul_iff hmul]
  rcases hu with hu | hu <;> rcases hl with hl | hl <;>
    simp only [hu, hl, reduceCtorEq, or_self, or_true, true_or, if_true, if_false,
      Relation.Holds, sub_nonpos, sub_neg, false_imp_iff, true_imp_iff, and_true]
  all_goals exact ⟨fun h => ⟨h.le, h⟩, And.right⟩

theorem isInequality_combine? {u l d : Constraint} (h : combine? name u l = some d) :
    d.relation.IsInequality := by
  obtain ⟨k, a, b, s, -, -, -, -, rfl⟩ := combine?_eq_some h
  show Relation.IsInequality (ite _ _ _)
  split
  · exact .inr rfl
  · exact .inl rfl

theorem variableNames_combine? {u l d : Constraint} (h : combine? name u l = some d) {n : String}
    (hn : n ∈ d.linear.variableNames) :
    n ≠ name ∧ (n ∈ u.linear.variableNames ∨ n ∈ l.linear.variableNames) := by
  obtain ⟨k, a, b, s, -, ha, hb, hs, rfl⟩ := combine?_eq_some h
  obtain ⟨hne, hmem⟩ := Linear.mem_variableNames_erase.mp hn
  exact ⟨hne, (Linear.variableNames_add? hs hmem).imp (Linear.variableNames_scale? ha)
    (Linear.variableNames_scale? hb)⟩

/-- Each lower bound is combined with an upper one, and nothing else comes of it. -/
theorem mem_combineWith {u : Constraint} {lower ds : List Constraint}
    (h : combineWith name u lower = some ds) :
    (∀ l ∈ lower, ∃ d ∈ ds, combine? name u l = some d) ∧
      ∀ d ∈ ds, ∃ l ∈ lower, combine? name u l = some d := by
  induction lower generalizing ds with
  | nil =>
    obtain rfl := Option.some.inj h
    exact ⟨by simp, by simp⟩
  | cons l rest ih =>
    simp only [combineWith] at h
    split at h
    · next d t hd ht =>
      obtain rfl := Option.some.inj h
      obtain ⟨hl, hr⟩ := ih ht
      refine ⟨List.forall_mem_cons.mpr ⟨⟨d, List.mem_cons_self, hd⟩, fun l' hl' => ?_⟩,
        List.forall_mem_cons.mpr ⟨⟨l, List.mem_cons_self, hd⟩, fun d' hd' => ?_⟩⟩
      · obtain ⟨d', hmem, hd'⟩ := hl l' hl'
        exact ⟨d', List.mem_cons_of_mem _ hmem, hd'⟩
      · obtain ⟨l', hmem, hl'⟩ := hr d' hd'
        exact ⟨l', List.mem_cons_of_mem _ hmem, hl'⟩
    · exact absurd h nofun

/-- Each lower bound is combined with each upper one, and nothing else comes of it. -/
theorem mem_combineAll {lower upper ds : List Constraint}
    (h : combineAll name lower upper = some ds) :
    (∀ u ∈ upper, ∀ l ∈ lower, ∃ d ∈ ds, combine? name u l = some d) ∧
      ∀ d ∈ ds, ∃ u ∈ upper, ∃ l ∈ lower, combine? name u l = some d := by
  induction upper generalizing ds with
  | nil =>
    obtain rfl := Option.some.inj h
    exact ⟨by simp, by simp⟩
  | cons u rest ih =>
    simp only [combineAll] at h
    split at h
    · next s t hs ht =>
      obtain rfl := Option.some.inj h
      obtain ⟨hu, hr⟩ := ih ht
      obtain ⟨hu', hr'⟩ := mem_combineWith hs
      refine ⟨List.forall_mem_cons.mpr ⟨fun l hl => ?_, fun u' hmem l hl => ?_⟩, fun d hd => ?_⟩
      · obtain ⟨d, hd, hd'⟩ := hu' l hl
        exact ⟨d, List.mem_append_left _ hd, hd'⟩
      · obtain ⟨d, hd, hd'⟩ := hu u' hmem l hl
        exact ⟨d, List.mem_append_right _ hd, hd'⟩
      · rcases List.mem_append.mp hd with hd | hd
        · exact ⟨u, List.mem_cons_self, hr' d hd⟩
        · obtain ⟨u', hmem, hd'⟩ := hr d hd
          exact ⟨u', List.mem_cons_of_mem _ hmem, hd'⟩
    · exact absurd h nofun

/-! ## Elimination of a variable -/

/-- The rows without a variable: those that do not mention it, and the combinations. -/
theorem eliminateVariable_eq_some {rows next : List Constraint}
    (h : eliminateVariable name rows = some next) :
    ∃ ds, combineAll name (rows.filter fun c => (c.linear.coeff name).orderZero == .lt)
        (rows.filter fun c => (c.linear.coeff name).orderZero == .gt) = some ds ∧
      next = (rows.filter fun c => (c.linear.coeff name).orderZero == .eq) ++ ds := by
  obtain ⟨ds, hds, rfl⟩ := Option.map_eq_some_iff.mp h
  exact ⟨ds, hds, rfl⟩

theorem holds_update_of_coeff_eq_zero {c : Constraint} (h : (c.linear.coeff name).value = 0)
    (x : ℚ) : c.Holds (update ρ name x) ↔ c.Holds ρ := by
  rw [Constraint.Holds, Constraint.Holds, Linear.value_with, Linear.value_erase, h, zero_mul,
    zero_mul, sub_zero, add_zero]

/-- The rows without a variable hold exactly if it can be chosen so that all rows hold. -/
theorem solves_eliminateVariable_iff {rows next : List Constraint}
    (h : eliminateVariable name rows = some next)
    (hrows : ∀ c ∈ rows, c.relation.IsInequality) :
    Solves ρ next ↔ ∃ x, Solves (update ρ name x) rows := by
  obtain ⟨ds, hds, rfl⟩ := eliminateVariable_eq_some h
  obtain ⟨hall, honly⟩ := mem_combineAll hds
  have hlt : ∀ {c}, c ∈ rows.filter (fun c => (c.linear.coeff name).orderZero == .lt) ↔
      c ∈ rows ∧ (c.linear.coeff name).value < 0 := by
    simp [Fraction.orderZero_eq_lt_iff]
  have hgt : ∀ {c}, c ∈ rows.filter (fun c => (c.linear.coeff name).orderZero == .gt) ↔
      c ∈ rows ∧ 0 < (c.linear.coeff name).value := by
    simp [Fraction.orderZero_eq_gt_iff]
  have heq : ∀ {c}, c ∈ rows.filter (fun c => (c.linear.coeff name).orderZero == .eq) ↔
      c ∈ rows ∧ (c.linear.coeff name).value = 0 := by
    simp [Fraction.orderZero_eq_eq_iff]
  rw [solves_append]
  constructor
  · rintro ⟨hzero, hcomb⟩
    obtain ⟨x, hlower, hupper⟩ := exists_between (bound ρ name) (fun c => c.relation = .lt)
      fun l hl u hu => by
        obtain ⟨d, hd, hcd⟩ := hall u hu l hl
        obtain ⟨hu, hpos⟩ := hgt.mp hu
        obtain ⟨hl, hneg⟩ := hlt.mp hl
        exact (holds_combine?_iff hcd (hrows u hu) (hrows l hl) hpos hneg).mp (hcomb d hd)
    refine ⟨x, fun c hc => ?_⟩
    rcases lt_trichotomy (c.linear.coeff name).value 0 with hneg | hz | hpos
    · exact (holds_iff_bound_le (hrows c hc) hneg x).mpr (hlower c (hlt.mpr ⟨hc, hneg⟩))
    · exact (holds_update_of_coeff_eq_zero hz x).mpr (hzero c (heq.mpr ⟨hc, hz⟩))
    · exact (holds_iff_le_bound (hrows c hc) hpos x).mpr (hupper c (hgt.mpr ⟨hc, hpos⟩))
  · rintro ⟨x, hx⟩
    refine ⟨fun c hc => ?_, fun d hd => ?_⟩
    · obtain ⟨hc, hz⟩ := heq.mp hc
      exact (holds_update_of_coeff_eq_zero hz x).mp (hx c hc)
    · obtain ⟨u, hu, l, hl, hcd⟩ := honly d hd
      obtain ⟨hu, hpos⟩ := hgt.mp hu
      obtain ⟨hl, hneg⟩ := hlt.mp hl
      obtain ⟨hlx, hlx'⟩ := (holds_iff_bound_le (hrows l hl) hneg x).mp (hx l hl)
      obtain ⟨hxu, hxu'⟩ := (holds_iff_le_bound (hrows u hu) hpos x).mp (hx u hu)
      refine (holds_combine?_iff hcd (hrows u hu) (hrows l hl) hpos hneg).mpr
        ⟨hlx.trans hxu, fun hs => ?_⟩
      rcases hs with hs | hs
      · exact (hlx' hs).trans_le hxu
      · exact hlx.trans_lt (hxu' hs)

theorem relation_eliminateVariable {rows next : List Constraint}
    (h : eliminateVariable name rows = some next)
    (hrows : ∀ c ∈ rows, c.relation.IsInequality) : ∀ c ∈ next, c.relation.IsInequality := by
  obtain ⟨ds, hds, rfl⟩ := eliminateVariable_eq_some h
  refine List.forall_mem_append.mpr ⟨fun c hc => hrows c (List.mem_filter.mp hc).1, fun d hd => ?_⟩
  obtain ⟨u, -, l, -, hcd⟩ := (mem_combineAll hds).2 d hd
  exact isInequality_combine? hcd

theorem notMem_of_coeff_eq_zero {l : Linear} (h : (l.coeff name).value = 0) :
    name ∉ l.variableNames := by
  rw [Linear.mem_variableNames_iff, Linear.get?_eq_none_iff.mpr h]
  exact nofun

/-- After its elimination a variable does not occur, and no other one is new. -/
theorem mentions_eliminateVariable {rows next : List Constraint}
    (h : eliminateVariable name rows = some next) {n : String} (hn : Mentions next n) :
    n ≠ name ∧ Mentions rows n := by
  obtain ⟨ds, hds, rfl⟩ := eliminateVariable_eq_some h
  obtain ⟨c, hc, hnc⟩ := hn
  rcases List.mem_append.mp hc with hc | hc
  · obtain ⟨hc, hz⟩ := List.mem_filter.mp hc
    rw [beq_iff_eq, Fraction.orderZero_eq_eq_iff] at hz
    exact ⟨ne_of_mem_of_not_mem hnc (notMem_of_coeff_eq_zero hz), c, hc, hnc⟩
  · obtain ⟨u, hu, l, hl, hcd⟩ := (mem_combineAll hds).2 c hc
    obtain ⟨hne, hmem⟩ := variableNames_combine? hcd hnc
    refine ⟨hne, ?_⟩
    rcases hmem with hmem | hmem
    · exact ⟨u, (List.mem_filter.mp hu).1, hmem⟩
    · exact ⟨l, (List.mem_filter.mp hl).1, hmem⟩

/-! ## Rows -/

/-- The live rows hold exactly if all rows do. -/
theorem solves_liveRows_iff {rows : List Constraint} (h : liveRows cs = .ok rows) :
    Solves ρ rows ↔ Solves ρ cs := by
  induction cs generalizing rows with
  | nil =>
    obtain rfl := Except.ok.inj h
    rfl
  | cons c rest ih =>
    unfold liveRows at h
    rw [solves_cons]
    split at h
    · next hconst =>
      split at h
      · next htrivial =>
        rw [ih h]
        exact (and_iff_right ((Constraint.holdsTrivially_iff hconst).mp htrivial)).symm
      · exact absurd h nofun
    · split at h
      · exact absurd h nofun
      · next l hl =>
        split at h
        · exact absurd h nofun
        · next t ht =>
          obtain rfl := Except.ok.inj h
          obtain ⟨k, hk, hvalue⟩ := Linear.value_normalize? hl
          rw [solves_cons, ih ht, Constraint.Holds, Constraint.Holds, hvalue,
            Relation.holds_mul_iff hk]

/-- A live row has variables, and is one of the rows but for a factor. -/
theorem mem_liveRows {rows : List Constraint} (h : liveRows cs = .ok rows) :
    ∀ r ∈ rows, r.linear.isConstant = false ∧
      ∃ c ∈ cs, r.relation = c.relation ∧ r.linear.variableNames = c.linear.variableNames := by
  induction cs generalizing rows with
  | nil =>
    obtain rfl := Except.ok.inj h
    exact fun r hr => absurd hr List.not_mem_nil
  | cons c rest ih =>
    have hskip : ∀ {t}, liveRows rest = .ok t → ∀ r ∈ t, r.linear.isConstant = false ∧
        ∃ d ∈ c :: rest, r.relation = d.relation ∧
          r.linear.variableNames = d.linear.variableNames := fun ht r hr => by
      obtain ⟨hvar, d, hd, hsame⟩ := ih ht r hr
      exact ⟨hvar, d, List.mem_cons_of_mem _ hd, hsame⟩
    unfold liveRows at h
    split at h
    · split at h
      · exact hskip h
      · exact absurd h nofun
    · next hvar =>
      split at h
      · exact absurd h nofun
      · next l hl =>
        split at h
        · exact absurd h nofun
        · next t ht =>
          obtain rfl := Except.ok.inj h
          have hnames := Linear.variableNames_normalize? hl
          refine List.forall_mem_cons.mpr ⟨⟨?_, c, List.mem_cons_self, rfl, hnames⟩, hskip ht⟩
          exact (Linear.isConstant_congr hnames).trans (Bool.not_eq_true _ ▸ hvar)

theorem relation_liveRows {rows : List Constraint} {P : Relation → Prop}
    (h : liveRows cs = .ok rows) (hcs : ∀ c ∈ cs, P c.relation) : ∀ r ∈ rows, P r.relation := by
  intro r hr
  obtain ⟨-, c, hc, hrel, -⟩ := mem_liveRows h r hr
  rw [hrel]
  exact hcs c hc

theorem mentions_liveRows {rows : List Constraint} (h : liveRows cs = .ok rows) {n : String}
    (hn : Mentions rows n) : Mentions cs n := by
  obtain ⟨r, hr, hnr⟩ := hn
  obtain ⟨-, c, hc, -, hnames⟩ := mem_liveRows h r hr
  exact ⟨c, hc, hnames ▸ hnr⟩

theorem liveRows_ne_sat : liveRows cs ≠ .error .sat := by
  induction cs with
  | nil => exact nofun
  | cons c rest ih =>
    unfold liveRows
    split
    · split
      · exact ih
      · exact nofun
    · split
      · exact nofun
      · split
        · next f hf => exact fun he => ih (hf.trans he)
        · exact nofun

theorem mem_dropRepeats (rows : List Constraint) {c : Constraint} :
    c ∈ dropRepeats rows ↔ c ∈ rows := by
  fun_induction dropRepeats rows with
  | case1 => rfl
  | case2 => rfl
  | case3 d r ih => rw [ih]; simp
  | case4 d e r _ ih => rw [List.mem_cons, List.mem_cons, ih]

theorem mem_sortRows {rows : List Constraint} {c : Constraint} :
    c ∈ sortRows rows ↔ c ∈ rows := by
  rw [sortRows, mem_dropRepeats, List.mem_mergeSort]

theorem mentions_sortRows_iff {rows : List Constraint} {n : String} :
    Mentions (sortRows rows) n ↔ Mentions rows n :=
  exists_congr fun _ => and_congr_left' mem_sortRows

theorem solves_sortRows_iff {rows : List Constraint} : Solves ρ (sortRows rows) ↔ Solves ρ rows :=
  forall_congr' fun _ => imp_congr_left mem_sortRows

/-! ## Inequalities -/

theorem occurs_iff {rows : List Constraint} {n : String} :
    occurs rows n = true ↔ Mentions rows n := by
  simp [occurs, Mentions, Linear.mem_variableNames_iff, Table.contains]

theorem cheapest_eq_none {cost : String → Nat} {names : List String}
    (h : cheapest cost names = none) : names = [] := by
  cases names with
  | nil => rfl
  | cons n r =>
    unfold cheapest at h
    split at h
    · exact absurd h nofun
    · split at h <;> exact absurd h nofun

theorem pickVariable_eq_none {names : List String} {rows : List Constraint}
    (h : pickVariable names rows = none) {n : String} (hn : n ∈ names) : ¬ Mentions rows n := by
  intro hm
  have hnil := List.filter_eq_nil_iff.mp (cheapest_eq_none h) n hn
  exact hnil (occurs_iff.mpr hm)

/-- Inequalities that are answered with yes have a solution. -/
theorem exists_of_dropInequalities {b : Budget} {m : Moment} {names : List String}
    (h : dropInequalities b m names cs = .sat) (hcs : ∀ c ∈ cs, c.relation.IsInequality)
    (hnames : ∀ n, Mentions cs n → n ∈ names) : ∃ ρ, Solves ρ cs := by
  fun_induction dropInequalities b m names cs with
  | case1 => exact absurd h nofun
  | case2 m names cs _ f hf => exact absurd (hf.trans (congrArg _ h)) liveRows_ne_sat
  | case3 m names cs _ rows hrows live hempty =>
    have hnil : live = [] := List.isEmpty_iff.mp hempty
    refine ⟨0, (solves_liveRows_iff hrows).mp (solves_sortRows_iff.mp ?_)⟩
    show Solves 0 live
    rw [hnil]
    exact solves_nil
  | case4 => exact absurd h nofun
  | case5 m names cs _ rows hrows live hempty _ hpick =>
    obtain ⟨r, hr⟩ := List.exists_mem_of_ne_nil live fun he => hempty (List.isEmpty_iff.mpr he)
    obtain ⟨hvar, -⟩ := mem_liveRows hrows r (mem_sortRows.mp hr)
    obtain ⟨n, hn⟩ := List.exists_mem_of_ne_nil r.linear.variableNames fun he =>
      Bool.false_ne_true (hvar.symm.trans (Linear.isConstant_iff.mpr he))
    have hmentions : Mentions live n := ⟨r, hr, hn⟩
    have hmem := hnames n (mentions_liveRows hrows (mentions_sortRows_iff.mp hmentions))
    exact absurd hmentions (pickVariable_eq_none hpick hmem)
  | case6 => exact absurd h nofun
  | case7 m names cs _ rows hrows live _ _ v hpick next hnext ih =>
    have hlive : ∀ c ∈ live, c.relation.IsInequality := fun c hc =>
      relation_liveRows hrows hcs c (mem_sortRows.mp hc)
    obtain ⟨ρ, hρ⟩ := ih h (relation_eliminateVariable hnext hlive) fun n hn => by
      obtain ⟨hne, hm⟩ := mentions_eliminateVariable hnext hn
      exact (List.mem_erase_of_ne hne).mpr
        (hnames n (mentions_liveRows hrows (mentions_sortRows_iff.mp hm)))
    obtain ⟨x, hx⟩ := (solves_eliminateVariable_iff hnext hlive).mp hρ
    exact ⟨update ρ v x, (solves_liveRows_iff hrows).mp (solves_sortRows_iff.mp hx)⟩

theorem mem_variablesOf_iff {n : String} : n ∈ variablesOf cs ↔ Mentions cs n := by
  rw [variablesOf, mem_distinctNames_iff, List.mem_flatMap]
  rfl

theorem relation_of_mem_equalities :
    ∀ c ∈ (cs.filter fun c => c.relation = .eq).reverse, c.relation = .eq := by
  intro c hc
  simpa using (List.mem_filter.mp (List.mem_reverse.mp hc)).2

theorem isInequality_of_mem_rest (hcs : ∀ c ∈ cs, c.relation ≠ .ne) :
    ∀ c ∈ cs.filter fun c => c.relation ≠ .eq, c.relation.IsInequality := by
  intro c hc
  obtain ⟨hmem, hr⟩ := List.mem_filter.mp hc
  exact Relation.isInequality_iff.mpr ⟨by simpa using hr, hcs c hmem⟩

/-- Constraints are solved if the equalities and the rest of them are. -/
theorem solves_partition_iff : Solves ρ cs ↔
    Solves ρ (cs.filter fun c => c.relation = .eq).reverse ∧
      Solves ρ (cs.filter fun c => c.relation ≠ .eq) := by
  constructor
  · intro hρ
    exact ⟨fun c hc => hρ c (List.mem_filter.mp (List.mem_reverse.mp hc)).1,
      fun c hc => hρ c (List.mem_filter.mp hc).1⟩
  · rintro ⟨heq, hrest⟩ c hc
    by_cases hr : c.relation = .eq
    · exact heq c (List.mem_reverse.mpr (List.mem_filter.mpr ⟨hc, by simpa using hr⟩))
    · exact hrest c (List.mem_filter.mpr ⟨hc, by simpa using hr⟩)

/-- Constraints without disequalities that are answered with yes have a solution. -/
theorem exists_of_decideConjunction {b : Budget} {m : Moment} (h : decideConjunction b m cs = .sat)
    (hcs : ∀ c ∈ cs, c.relation ≠ .ne) : ∃ ρ, Solves ρ cs := by
  unfold decideConjunction at h
  dsimp only at h
  split at h
  · next f hf =>
    obtain rfl := h
    exact absurd hf dropEqualities_ne_sat
  · next rest hrest =>
    obtain ⟨hin, hextend⟩ := exists_of_dropEqualities hrest (isInequality_of_mem_rest hcs)
      relation_of_mem_equalities
    obtain ⟨ρ, hρ⟩ := exists_of_dropInequalities h hin fun n hn => mem_variablesOf_iff.mpr hn
    obtain ⟨σ, hσ⟩ := hextend ρ hρ
    exact ⟨σ, solves_partition_iff.mpr hσ⟩

end LedgerGate.Solver

import LedgerGate.Proofs.Solver.Check
import LedgerGate.Proofs.Solver.Rounds

/-!
# A larger budget only decides more

With a larger bound on rows every round of elimination goes as before, unless the smaller bound
stopped it (`Solver.stopped_or_round_eq`). So a choice of sides that was decided is decided in the
same way, and the solver keeps its definite answers (`Solver.check_of_le`), though it may come to a
solution sooner.
-/

namespace LedgerGate.Solver

variable {b : Budget} {n : Nat} {cs : List Constraint}

/-- A budget with another bound on rows. -/
def Budget.withRows (b : Budget) (n : Nat) : Budget := { b with maxConstraints := n }

@[simp] theorem Budget.withRows_watch : (b.withRows n).watch = b.watch := rfl
@[simp] theorem Budget.withRows_maxConstraints : (b.withRows n).maxConstraints = n := rfl

/-- Whether the bound on rows is why a question stays open. -/
def Finding.Stopped (b : Budget) (f : Finding) : Prop :=
  ∃ count, f = .unknown (.tooManyConstraints count b.maxConstraints)

theorem not_stopped_sat : ¬ Finding.sat.Stopped b := by
  rintro ⟨count, h⟩
  cases h

theorem not_stopped_unsat {w : Contradiction} : ¬ (Finding.unsat w).Stopped b := by
  rintro ⟨count, h⟩
  cases h

/-! ## Elimination -/

theorem stopped_or_round_eq (m : Moment) (cs : List Constraint) (hle : b.maxConstraints ≤ n) :
    (∃ f : Finding, f.Stopped b ∧ round b m cs = .error f) ∨
      round (b.withRows n) m cs = round b m cs := by
  simp only [round, Budget.withRows_watch]
  cases (b.watch.seen m).obstacle? with
  | some o => exact .inr rfl
  | none =>
    cases liveRows cs with
    | error f => exact .inr rfl
    | ok rows =>
      dsimp only
      by_cases hempty : (sortRows rows).isEmpty = true
      · right
        rw [if_pos hempty, if_pos hempty]
      · by_cases hmany : b.maxConstraints < (sortRows rows).length
        · left
          rw [if_neg hempty, if_pos hmany]
          exact ⟨_, ⟨(sortRows rows).length, rfl⟩, rfl⟩
        · have hfew : ¬ (b.withRows n).maxConstraints < (sortRows rows).length := by
            rw [Budget.withRows_maxConstraints]
            omega
          right
          rw [if_neg hempty, if_neg hmany, if_neg hempty, if_neg hfew]

theorem stopped_or_decideConjunction_eq (m : Moment) (cs : List Constraint)
    (hle : b.maxConstraints ≤ n) :
    (decideConjunction b m cs).Stopped b ∨
      decideConjunction (b.withRows n) m cs = decideConjunction b m cs := by
  simp only [decideConjunction, Budget.withRows_watch]
  cases dropEqualities b.watch m (cs.filter fun c => c.relation ≠ .eq)
      (cs.filter fun c => c.relation = .eq).reverse with
  | error f => exact .inr rfl
  | ok rows =>
    refine dropInequalities_or_eq (R := (· = ·)) (fun _ _ => congrArg Moment.next) ?_ rfl
      (covers_variablesOf rows)
    rintro m _ cs rfl
    exact stopped_or_round_eq m cs hle

/-- What is found without a stop is found with a larger bound too. -/
theorem decideConjunction_of_le {m : Moment} {f : Finding} (hle : b.maxConstraints ≤ n)
    (h : decideConjunction b m cs = f) (hgoes : ¬ f.Stopped b) :
    decideConjunction (b.withRows n) m cs = f := by
  rcases stopped_or_decideConjunction_eq m cs hle with hstop | hsame
  · rw [h] at hstop
    exact absurd hstop hgoes
  · rw [hsame, h]

/-! ## Choices of sides -/

variable {unknowns tried u t : Nat} {base : List Constraint} {forms : List Linear}
  {open? : Option Obstacle} {last w : Contradiction} {choices : List (List Bool)}

/-- What is said with a solution: the number of variables, and of choices tried so far. -/
theorem tried_lt_of_tryBranches
    (h : tryBranches b unknowns base forms tried open? last choices = .sat u t) :
    u = unknowns ∧ tried < t := by
  fun_induction tryBranches b unknowns base forms tried open? last choices with
  | case1 | case2 | case3 | case6 => cases h
  | case4 tried =>
    obtain ⟨rfl, rfl⟩ := Answer.sat.inj h
    exact ⟨rfl, Nat.lt_succ_self tried⟩
  | case5 tried _ _ _ _ _ _ _ _ ih => exact (ih h).imp_right (Nat.lt_trans (Nat.lt_succ_self tried))
  | case7 tried _ _ _ _ _ _ _ _ _ ih =>
    exact (ih h).imp_right (Nat.lt_trans (Nat.lt_succ_self tried))

/-- While a choice is open no contradiction is found. -/
theorem tryBranches_open_ne_unsat (o : Obstacle) :
    tryBranches b unknowns base forms tried (some o) last choices ≠ .unsat w := by
  generalize ho : some o = open?
  fun_induction tryBranches b unknowns base forms tried open? last choices generalizing o with
  | case1 | case3 | case4 | case6 =>
    intro hw
    cases hw
  | case2 => cases ho
  | case5 _ _ _ _ _ _ _ _ _ ih => exact ih o ho
  | case7 _ _ _ _ _ _ _ o' _ _ ih => exact ih _ rfl

/-- A contradiction in all choices is found with a larger bound too. -/
theorem tryBranches_unsat_of_le (hle : b.maxConstraints ≤ n)
    (h : tryBranches b unknowns base forms tried open? last choices = .unsat w) :
    tryBranches (b.withRows n) unknowns base forms tried open? last choices = .unsat w := by
  fun_induction tryBranches b unknowns base forms tried open? last choices with
  | case1 | case3 | case4 | case6 => cases h
  | case2 => exact h
  | case5 tried open? last s rest cs hcs c hunsat ih =>
    have hsame := decideConjunction_of_le hle hunsat not_stopped_unsat
    simp only [tryBranches, hcs, hsame]
    exact ih h
  | case7 => exact absurd h (tryBranches_open_ne_unsat _)

/-- A solution that one of the choices has is found with a larger bound too, or one of an earlier
choice that the smaller bound left open. Which choices are open and which of them was found
contradictory last does not matter for this. -/
theorem tryBranches_sat_of_le (hrun : b.watch = .running) (hle : b.maxConstraints ≤ n)
    (h : tryBranches b unknowns base forms tried open? last choices = .sat u t)
    (open?' : Option Obstacle) (last' : Contradiction) :
    ∃ t' ≤ t, tryBranches (b.withRows n) unknowns base forms tried open?' last' choices =
      .sat u t' := by
  fun_induction tryBranches b unknowns base forms tried open? last choices
      generalizing open?' last' with
  | case1 | case2 | case3 | case6 => cases h
  | case4 tried open? last s rest cs hcs hsat =>
    have hsame := decideConjunction_of_le hle hsat not_stopped_sat
    refine ⟨t, Nat.le_refl t, ?_⟩
    simp only [tryBranches, hcs, hsame]
    exact h
  | case5 tried open? last s rest cs hcs c hunsat ih =>
    have hsame := decideConjunction_of_le hle hunsat not_stopped_unsat
    simp only [tryBranches, hcs, hsame]
    exact ih h open?' c
  | case7 tried open? last s rest cs hcs o ho _ ih =>
    have hgoes : ¬ (b.withRows n).watch.seen ⟨tried + 1, 0⟩ ≠ .running := by
      rw [Budget.withRows_watch, hrun, Watch.seen_running]
      exact not_not_intro rfl
    obtain ⟨rfl, hlt⟩ := tried_lt_of_tryBranches h
    cases hlarger : decideConjunction (b.withRows n) (Moment.next ⟨tried, 0⟩) (base ++ cs) with
    | sat =>
      -- The choice that was left open has a solution: the search ends here.
      refine ⟨tried + 1, Nat.le_of_lt hlt, ?_⟩
      simp only [tryBranches, hcs, hlarger]
    | unsat c =>
      simp only [tryBranches, hcs, hlarger]
      exact ih h open?' c
    | unknown o' =>
      simp only [tryBranches, hcs, hlarger, if_neg hgoes]
      exact ih h _ last'

/-! ## Answers -/

/-- A larger bound on rows only decides more, while work may go on: constraints that are found
satisfiable are found satisfiable, after no more choices of sides, and those that are found
contradictory are found so in the same place. -/
theorem check_of_le {m : Nat} (hle : m ≤ n) (maxDisequalities : Nat) (cs : List Constraint) :
    (∀ unknowns branches, check ⟨.running, m, maxDisequalities⟩ cs = .sat unknowns branches →
      ∃ branches' ≤ branches,
        check ⟨.running, n, maxDisequalities⟩ cs = .sat unknowns branches') ∧
    ∀ w, check ⟨.running, m, maxDisequalities⟩ cs = .unsat w →
      check ⟨.running, n, maxDisequalities⟩ cs = .unsat w := by
  unfold check
  cases splitDisequalities cs with
  | none => exact ⟨fun _ _ h => (nomatch h), fun _ h => h⟩
  | some forms =>
    dsimp only
    by_cases hmany : maxDisequalities < forms.length
    · rw [if_pos hmany]
      exact ⟨fun _ _ h => (nomatch h), fun _ h => (nomatch h)⟩
    · rw [if_neg hmany, if_neg hmany]
      exact ⟨fun _ _ h => tryBranches_sat_of_le rfl hle h none .noBranch,
        fun _ h => tryBranches_unsat_of_le hle h⟩

/-- The row that says that `x` is positive. -/
def positiveRow : Constraint := rowOf (.lit "0") .lt (.var "x")

/-- The row that says that `x` is negative. -/
def negativeRow : Constraint := rowOf (.var "x") .lt (.lit "0")

/-- The row that says that `x` is not zero. -/
def nonzeroRow : Constraint := rowOf (.var "x") .ne (.lit "0")

/-- That `x` is positive, and not zero, has a solution on the second side of zero. A bound of one
row stops the work on the first side, which is contradictory, and a bound of two rows does not. With
the usual bound both answers are the same. -/
theorem check_of_le_one :
    check ⟨.running, 1, 8⟩ [positiveRow, nonzeroRow] = .sat 1 2 ∧
      (∃ branches ≤ 2,
        check ⟨.running, 4096, 8⟩ [positiveRow, nonzeroRow] = .sat 1 branches) ∧
      check ⟨.running, 2, 8⟩ [positiveRow, negativeRow] = .unsat .inequalities ∧
      check ⟨.running, 4096, 8⟩ [positiveRow, negativeRow] = .unsat .inequalities := by
  -- The rows of both sides are in order, so that the order need not be computed.
  have hpositive : positiveRow ∈ [positiveRow, negativeRow] := .head _
  have hnegative : negativeRow ∈ [positiveRow, negativeRow] := .tail _ (.head _)
  have hdrop : ∀ m ∈ [Moment.next ⟨0, 0⟩, Moment.next ⟨1, 0⟩], ∀ c ∈ [positiveRow, negativeRow],
      dropEqualities .running m ([positiveRow, c].filter fun c => c.relation ≠ .eq)
        ([positiveRow, c].filter fun c => c.relation = .eq).reverse = .ok [positiveRow, c] := by
    decide +kernel
  have hfirst : Moment.next ⟨0, 0⟩ ∈ [Moment.next ⟨0, 0⟩, Moment.next ⟨1, 0⟩] := .head _
  have hsecond : Moment.next ⟨1, 0⟩ ∈ [Moment.next ⟨0, 0⟩, Moment.next ⟨1, 0⟩] := .tail _ (.head _)
  have hlive : ∀ c ∈ [positiveRow, negativeRow],
      liveRows [positiveRow, c] = .ok [positiveRow, c] := by decide +kernel
  have hsorted : ∀ c ∈ [positiveRow, negativeRow],
      [positiveRow, c].Pairwise fun c d => (c.order d != .gt) = true := by decide +kernel
  have hsort : ∀ c ∈ [positiveRow, negativeRow],
      sortRows [positiveRow, c] = dropRepeats [positiveRow, c] := fun c hc =>
    sortRows_of_sorted (hsorted c hc)
  have hstop : decideConjunction ⟨.running, 1, 8⟩ (Moment.next ⟨0, 0⟩) [positiveRow, negativeRow] =
      .unknown (.tooManyConstraints 2 1) := by
    simp only [decideConjunction, hdrop _ hfirst _ hnegative]
    rw [dropInequalities_eq_round (covers_variablesOf _), round]
    simp only [hlive _ hnegative, hsort _ hnegative]
    decide +kernel
  have hsat : decideConjunction ⟨.running, 1, 8⟩ (Moment.next ⟨1, 0⟩) [positiveRow, positiveRow] =
      .sat := by
    simp only [decideConjunction, hdrop _ hsecond _ hpositive]
    rw [dropInequalities_eq_round (covers_variablesOf _), round]
    simp only [hlive _ hpositive, hsort _ hpositive]
    decide +kernel
  have hunsat : decideConjunction ⟨.running, 2, 8⟩ (Moment.next ⟨0, 0⟩)
      [positiveRow, negativeRow] = .unsat .inequalities := by
    simp only [decideConjunction, hdrop _ hfirst _ hnegative]
    rw [dropInequalities_eq_round (covers_variablesOf _), round]
    simp only [hlive _ hnegative, hsort _ hnegative]
    decide +kernel
  have hone : check ⟨.running, 1, 8⟩ [positiveRow, nonzeroRow] = .sat 1 2 := by
    have hforms : splitDisequalities [positiveRow, nonzeroRow] = some [nonzeroRow.linear] := by
      decide +kernel
    have hbelow : takeSides [nonzeroRow.linear] [false] = some [negativeRow] := by decide +kernel
    have habove : takeSides [nonzeroRow.linear] [true] = some [positiveRow] := by decide +kernel
    have hbase : ([positiveRow, nonzeroRow].filter fun c => c.relation ≠ .ne) = [positiveRow] := by
      decide +kernel
    have hnames : variablesOf [positiveRow, nonzeroRow] = ["x"] := by decide +kernel
    simp only [check, hforms, hbase, hnames, List.length_singleton]
    rw [show sides 1 = [[false], [true]] from rfl]
    simp only [tryBranches, hbelow, habove, List.singleton_append, hstop, hsat,
      Watch.seen_running]
    rfl
  have htwo : check ⟨.running, 2, 8⟩ [positiveRow, negativeRow] = .unsat .inequalities := by
    have hforms : splitDisequalities [positiveRow, negativeRow] = some [] := by decide +kernel
    have hbase : ([positiveRow, negativeRow].filter fun c => c.relation ≠ .ne) =
        [positiveRow, negativeRow] := by decide +kernel
    simp only [check, hforms, hbase, List.length_nil]
    rw [show sides 0 = [[]] from rfl]
    simp only [tryBranches, takeSides, List.append_nil, hunsat]
    rfl
  exact ⟨hone, (check_of_le (by decide) 8 _).1 1 2 hone, htwo,
    (check_of_le (by decide) 8 _).2 .inequalities htwo⟩

end LedgerGate.Solver

import LedgerGate.Proofs.Solver.Rounds
import LedgerGate.Solver.Check

/-!
# A solver that is told to stop

A solver looks up between its steps. What it is told then can only leave the question open: any
other answer is the one that it gives when nobody tells it to stop (`Solver.check_eq_or_unknown`).
If it is told from the start, it finds no solution (`Solver.check_ne_sat`).
-/

namespace LedgerGate

/-! ## Moments and signals -/

namespace Moment

variable {m n k : Moment}

theorem le_iff : m ≤ n ↔ m.tried < n.tried ∨ m.tried = n.tried ∧ m.looks ≤ n.looks := Iff.rfl

protected theorem le_trans (h : m ≤ n) (h' : n ≤ k) : m ≤ k := by
  rw [le_iff] at *
  omega

theorem start_le (m : Moment) : start ≤ m := by
  simp only [le_iff, start]
  omega

theorem le_later (m : Moment) (k : Nat) : m ≤ m.later k := by
  simp [le_iff, later]

@[simp] theorem tried_later (k : Nat) : (m.later k).tried = m.tried := rfl

@[simp] theorem tried_next : m.next.tried = m.tried := rfl

end Moment

/-- A signal that shows goes on showing. -/
theorem Signal.isOn_of_le {s : Signal} {m n : Moment} (hle : m ≤ n) (h : s.isOn m = true) :
    s.isOn n = true := by
  obtain ⟨since⟩ := s
  cases since with
  | none => cases h
  | some first =>
    simp only [isOn, Option.any_some, decide_eq_true_eq] at *
    exact Moment.le_trans h hle

namespace Watch

variable {w : Watch} {m n : Moment}

theorem seen_eq_running_iff :
    w.seen m = .running ↔ w.cancelled.isOn m = false ∧ w.expired.isOn m = false := by
  unfold seen
  by_cases hcancelled : w.cancelled.isOn m = true
  · simp [hcancelled]
  · by_cases hexpired : w.expired.isOn m = true
    · simp [hcancelled, hexpired]
    · simp [hcancelled, hexpired]

/-- A run that was told to stop is told so whenever it looks up again. -/
theorem seen_ne_running_of_le (hle : m ≤ n) (h : w.seen m ≠ .running) : w.seen n ≠ .running := by
  intro hn
  obtain ⟨hcancelled, hexpired⟩ := seen_eq_running_iff.mp hn
  apply h
  refine seen_eq_running_iff.mpr ⟨?_, ?_⟩
  · by_contra hm
    simp [Signal.isOn_of_le hle (by simpa using hm)] at hcancelled
  · by_contra hm
    simp [Signal.isOn_of_le hle (by simpa using hm)] at hexpired

end Watch

namespace Solver

variable {w : Watch} {b : Budget} {m : Moment} {cs : List Constraint}

theorem Liveness.ne_running_of_obstacle? {live : Liveness} {o : Obstacle}
    (h : live.obstacle? = some o) : live ≠ .running := by
  rintro rfl
  cases h

/-! ## Interruptions -/

/-- A budget with which nothing tells the work to stop. -/
def Budget.unwatched (b : Budget) : Budget := { b with watch := .running }

@[simp] theorem Budget.unwatched_watch : b.unwatched.watch = .running := rfl

/-- Whether a question stays open because the work was told to stop while it tried a choice. -/
def Finding.Interrupted (w : Watch) (tried : Nat) (f : Finding) : Prop :=
  ∃ m o, m.tried = tried ∧ (w.seen m).obstacle? = some o ∧ f = .unknown o

theorem interrupted_of_obstacle? {o : Obstacle} (h : (w.seen m).obstacle? = some o) :
    (Finding.unknown o).Interrupted w m.tried :=
  ⟨m, o, rfl, h, rfl⟩

/-- The work that was interrupted in a choice is told to stop after it. -/
theorem Finding.Interrupted.seen_ne_running {f : Finding} {tried : Nat}
    (h : f.Interrupted w tried) : w.seen ⟨tried + 1, 0⟩ ≠ .running := by
  obtain ⟨m, o, rfl, ho, -⟩ := h
  have hle : m ≤ ⟨m.tried + 1, 0⟩ := by simp [Moment.le_iff]
  exact Watch.seen_ne_running_of_le hle (Liveness.ne_running_of_obstacle? ho)

theorem interrupted_or_turn_eq (m n : Moment) (e : Constraint)
    (rest inequalities : List Constraint) :
    (∃ f : Finding, f.Interrupted w m.tried ∧ turn w m e rest inequalities = .error f) ∨
      turn w m e rest inequalities = turn .running n e rest inequalities := by
  unfold turn
  cases ho : (w.seen m).obstacle? with
  | some o => exact .inl ⟨_, interrupted_of_obstacle? ho, rfl⟩
  | none => exact .inr rfl

theorem interrupted_or_round_eq (m n : Moment) (cs : List Constraint) :
    (∃ f : Finding, f.Interrupted b.watch m.tried ∧ round b m cs = .error f) ∨
      round b.unwatched n cs = round b m cs := by
  unfold round
  cases ho : (b.watch.seen m).obstacle? with
  | some o => exact .inl ⟨_, interrupted_of_obstacle? ho, rfl⟩
  | none => exact .inr rfl

/-- Equalities are dropped as if nobody told the work to stop, up to an interruption. -/
theorem interrupted_or_dropEqualities_eq (m n : Moment)
    (inequalities equalities : List Constraint) :
    (∃ f : Finding, f.Interrupted w m.tried ∧
      dropEqualities w m inequalities equalities = .error f) ∨
      dropEqualities w m inequalities equalities =
        dropEqualities .running n inequalities equalities := by
  induction hk : equalities.length generalizing m n inequalities equalities with
  | zero =>
    obtain rfl := List.eq_nil_of_length_eq_zero hk
    right
    simp only [dropEqualities]
  | succ k ih =>
    obtain ⟨e, rest, rfl⟩ := List.exists_cons_of_length_eq_add_one hk
    simp only [dropEqualities_cons]
    rcases interrupted_or_turn_eq m n e rest inequalities with ⟨f, hf, hturn⟩ | hsame
    · rw [hturn]
      exact .inl ⟨f, hf, rfl⟩
    · rw [hsame]
      cases hturn : turn .running n e rest inequalities with
      | error f => exact .inr rfl
      | ok p =>
        obtain ⟨rest', inequalities'⟩ := p
        have hlength : rest'.length = k := by
          rw [length_turn hturn]
          exact Nat.succ.inj hk
        exact ih m.next n.next inequalities' rest' hlength

/-- A choice is decided as if nobody told the work to stop, unless it is interrupted. -/
theorem interrupted_or_decideConjunction_eq (m n : Moment) (cs : List Constraint) :
    (decideConjunction b m cs).Interrupted b.watch m.tried ∨
      decideConjunction b.unwatched n cs = decideConjunction b m cs := by
  simp only [decideConjunction, Budget.unwatched_watch]
  rcases interrupted_or_dropEqualities_eq (w := b.watch) m n
    (cs.filter fun c => c.relation ≠ .eq) (cs.filter fun c => c.relation = .eq).reverse with
    ⟨f, hf, hdrop⟩ | hsame
  · rw [hdrop]
    exact .inl hf
  · rw [hsame]
    cases dropEqualities .running n (cs.filter fun c => c.relation ≠ .eq)
        (cs.filter fun c => c.relation = .eq).reverse with
    | error f => exact .inr rfl
    | ok rows =>
      refine dropInequalities_or_eq (R := fun m' _ => m'.tried = m.tried) (fun _ _ => id) ?_
        rfl
        (covers_variablesOf rows)
      intro m' n' cs' htried
      rw [← htried]
      exact interrupted_or_round_eq m' n' cs'

/-! ## Answers -/

/-- Choices are tried as if nobody told the work to stop, or the question stays open. -/
theorem tryBranches_eq_or_unknown {unknowns tried : Nat} {base : List Constraint}
    {forms : List Linear} {open? : Option Obstacle} {last : Contradiction}
    {choices : List (List Bool)} :
    tryBranches b unknowns base forms tried open? last choices =
        tryBranches b.unwatched unknowns base forms tried open? last choices ∨
      ∃ o, tryBranches b unknowns base forms tried open? last choices = .unknown o := by
  induction choices generalizing tried open? last with
  | nil => exact .inl rfl
  | cons s rest ih =>
    simp only [tryBranches]
    cases hcs : takeSides forms s with
    | none => exact .inl rfl
    | some cs =>
      dsimp only
      rcases interrupted_or_decideConjunction_eq (b := b) (Moment.next ⟨tried, 0⟩)
        (Moment.next ⟨tried, 0⟩) (base ++ cs) with hstop | hsame
      · have hseen := hstop.seen_ne_running
        obtain ⟨-, o, -, -, ho⟩ := hstop
        rw [ho]
        exact .inr ⟨o, if_pos hseen⟩
      · rw [hsame]
        cases decideConjunction b (Moment.next ⟨tried, 0⟩) (base ++ cs) with
        | sat => exact .inl rfl
        | unsat c => exact ih
        | unknown o =>
          by_cases hseen : b.watch.seen ⟨tried + 1, 0⟩ = .running
          · simpa [hseen] using ih
          · exact .inr ⟨o, if_pos hseen⟩

/-- What the solver answers is what it answers when nobody tells it to stop, or it leaves the
question open. -/
theorem check_eq_or_unknown (b : Budget) (cs : List Constraint) :
    check b cs = check b.unwatched cs ∨ ∃ o, check b cs = .unknown o := by
  unfold check
  cases splitDisequalities cs with
  | none => exact .inl rfl
  | some forms =>
    by_cases hmany : b.maxDisequalities < forms.length
    · exact .inr ⟨_, if_pos hmany⟩
    · have hmany' : ¬ b.unwatched.maxDisequalities < forms.length := hmany
      simp only [if_neg hmany, if_neg hmany']
      exact tryBranches_eq_or_unknown

example :
    check (.usual .running) [sumRow] = .sat 3 1 ∧
      check (.usual ⟨.never, ⟨some ⟨0, 2⟩⟩⟩) [sumRow] = .unknown .expired := by
  constructor <;> cbv

/-! ## Work that is told to stop from the start -/

theorem dropInequalities_ne_sat {names : List String} (hstop : b.watch.seen m ≠ .running) :
    dropInequalities b m names cs ≠ .sat := by
  unfold dropInequalities
  intro h
  cases hseen : b.watch.seen m with
  | running => exact hstop hseen
  | cancelled | expired =>
    rw [hseen] at h
    cases h

theorem decideConjunction_ne_sat (hstop : b.watch.seen m ≠ .running) :
    decideConjunction b m cs ≠ .sat := by
  unfold decideConjunction
  dsimp only
  split
  · next f hf =>
    rintro rfl
    exact dropEqualities_ne_sat hf
  · exact dropInequalities_ne_sat (Watch.seen_ne_running_of_le (m.le_later _) hstop)

theorem tryBranches_ne_sat {unknowns tried n k : Nat} {base : List Constraint}
    {forms : List Linear} {open? : Option Obstacle} {last : Contradiction}
    {choices : List (List Bool)} (hstop : b.watch.seen .start ≠ .running) :
    tryBranches b unknowns base forms tried open? last choices ≠ .sat n k := by
  fun_induction tryBranches b unknowns base forms tried open? last choices with
  | case1 | case2 | case3 | case6 =>
    intro h
    cases h
  | case4 tried open? last s rest cs hcs hsat =>
    have hseen := Watch.seen_ne_running_of_le (Moment.start_le (Moment.next ⟨tried, 0⟩)) hstop
    exact absurd hsat (decideConjunction_ne_sat hseen)
  | case5 _ _ _ _ _ _ _ _ _ ih => exact ih
  | case7 _ _ _ _ _ _ _ _ _ _ ih => exact ih

/-- A solver that is told to stop from the start finds no solution. -/
theorem check_ne_sat {n k : Nat} (hstop : b.watch.seen .start ≠ .running) :
    check b cs ≠ .sat n k := by
  unfold check
  split
  · intro h
    cases h
  · split
    · intro h
      cases h
    · exact tryBranches_ne_sat hstop

end Solver
end LedgerGate

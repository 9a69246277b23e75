import LedgerGate.Proofs.Solver.Elimination
import Mathlib.Data.List.Sort

/-!
# Elimination comes to an end

The loop over equalities takes one of them away at each turn, and the variable that it is solved
for occurs nowhere after that (`Solver.mentions_turn`). The loop over inequalities eliminates one of
the variables that occur at each round (`Solver.mentions_round`). The rows may become more, but no
variable is ever new, so the rounds are at most one more than the variables
(`Solver.elimination_ends`).
-/

namespace LedgerGate.Solver

variable {b : Budget} {m : Moment} {names : List String} {cs next : List Constraint} {v n : String}

/-! ## Rounds of the loop over inequalities -/

theorem sortRows_of_sorted (h : cs.Pairwise fun c d => (c.order d != .gt) = true) :
    sortRows cs = dropRepeats cs := by
  rw [sortRows, List.mergeSort_of_pairwise h]

/-- One round of the loop over inequalities: what it found, or the variable that it eliminated, of
all those that occur, and the rows of the next round. -/
def round (b : Budget) (m : Moment) (cs : List Constraint) :
    Except Finding (String × List Constraint) :=
  match (b.watch.seen m).obstacle? with
  | some o => .error (.unknown o)
  | none =>
    match liveRows cs with
    | .error f => .error f
    | .ok rows =>
      let live := sortRows rows
      if live.isEmpty then .error .sat
      else if b.maxConstraints < live.length then
        .error (.unknown (.tooManyConstraints live.length b.maxConstraints))
      else
        match pickVariable (variablesOf live) live with
        | none => .error .sat
        | some v =>
          match eliminateVariable v live with
          | none => .error (.unknown .overflow)
          | some next => .ok (v, next)

/-- Rounds of the loop one after another, a given number of them at most: what was found, or the
rows that are left. -/
def rounds (b : Budget) : Moment → Nat → List Constraint → Except Finding (List Constraint)
  | _, 0, cs => .ok cs
  | m, k + 1, cs =>
    match round b m cs with
    | .error f => .error f
    | .ok (_, next) => rounds b m.next k next

theorem round_eq_ok (h : round b m cs = .ok (v, next)) : ∃ rows, liveRows cs = .ok rows ∧
    v ∈ variablesOf (sortRows rows) ∧ eliminateVariable v (sortRows rows) = some next := by
  unfold round at h
  split at h
  · cases h
  · split at h
    · cases h
    · next rows hrows =>
      dsimp only at h
      split at h
      · cases h
      · split at h
        · cases h
        · split at h
          · cases h
          · next w hw =>
            split at h
            · cases h
            · next rest hrest =>
              obtain ⟨rfl, rfl⟩ := Prod.mk.inj (Except.ok.inj h)
              exact ⟨rows, hrows, pickVariable_mem hw, hrest⟩

/-- A round that does not end the loop picks a variable that occurs, which does not occur any more
after it, and no other variable is new. -/
theorem mentions_round (h : round b m cs = .ok (v, next)) :
    Mentions cs v ∧ ¬ Mentions next v ∧ ∀ n, Mentions next n → Mentions cs n := by
  obtain ⟨rows, hrows, hv, hnext⟩ := round_eq_ok h
  have hback : ∀ {n}, Mentions (sortRows rows) n → Mentions cs n := fun hn =>
    mentions_liveRows hrows (mentions_sortRows_iff.mp hn)
  refine ⟨hback (mem_variablesOf_iff.mp hv), fun hn => ?_, fun n hn => ?_⟩
  · exact (mentions_eliminateVariable hnext hn).1 rfl
  · exact hback (mentions_eliminateVariable hnext hn).2

/-! ## The variables that may be picked -/

/-- Whether names are in order, and all variables of rows are among them. -/
structure Covers (names : List String) (cs : List Constraint) : Prop where
  sorted : names.Pairwise (· < ·)
  mem : ∀ {n}, Mentions cs n → n ∈ names

theorem sorted_variablesOf (cs : List Constraint) : (variablesOf cs).Pairwise (· < ·) :=
  List.pairwise_map.mpr (Table.sorted _)

theorem covers_variablesOf (cs : List Constraint) : Covers (variablesOf cs) cs :=
  ⟨sorted_variablesOf cs, mem_variablesOf_iff.mpr⟩

theorem Covers.mono {rows : List Constraint} (h : Covers names cs)
    (hle : ∀ {n}, Mentions rows n → Mentions cs n) : Covers names rows :=
  ⟨h.sorted, fun hn => h.mem (hle hn)⟩

/-- The names of a round without the one that it eliminates are enough for the next round. -/
theorem Covers.round (h : Covers names cs) (hround : round b m cs = .ok (v, next)) :
    Covers (names.erase v) next where
  sorted := h.sorted.sublist List.erase_sublist
  mem hn := by
    obtain ⟨-, hgone, hold⟩ := mentions_round hround
    have hne : _ ≠ v := fun he => hgone (he ▸ hn)
    exact (List.mem_erase_of_ne hne).mpr (h.mem (hold _ hn))

/-- It makes no difference to the choice of a variable which further names there are. -/
theorem pickVariable_of_covers (h : Covers names cs) :
    pickVariable names cs = pickVariable (variablesOf cs) cs := by
  have hsame : names.filter (occurs cs) = (variablesOf cs).filter (occurs cs) := by
    refine (h.sorted.filter _).eq_of_mem_iff ((sorted_variablesOf cs).filter _) fun n => ?_
    rw [List.mem_filter, List.mem_filter, mem_variablesOf_iff, occurs_iff]
    exact and_congr_left fun hn => iff_of_true (h.mem hn) hn
  rw [pickVariable, hsame, pickVariable]

/-- The loop over inequalities does its first round and then goes on. -/
theorem dropInequalities_eq_round (h : Covers names cs) : dropInequalities b m names cs =
    match round b m cs with
    | .error f => f
    | .ok (v, next) => dropInequalities b m.next (names.erase v) next := by
  have hpick : ∀ {rows}, liveRows cs = .ok rows →
      pickVariable (variablesOf (sortRows rows)) (sortRows rows) =
        pickVariable names (sortRows rows) := fun hrows =>
    (pickVariable_of_covers (h.mono fun hn =>
      mentions_liveRows hrows (mentions_sortRows_iff.mp hn))).symm
  unfold round
  fun_cases dropInequalities b m names cs with
  | case1 o ho => rw [ho]
  | case2 ho f hf => simp only [ho, hf]
  | case3 ho rows hrows live hempty => simp only [ho, hrows, if_pos hempty, live]
  | case4 ho rows hrows live hempty hmany =>
    simp only [ho, hrows, if_neg hempty, if_pos hmany, live]
  | case5 ho rows hrows live hempty hfew hnone =>
    simp only [ho, hrows, if_neg hempty, if_neg hfew, hpick hrows, hnone, live]
  | case6 ho rows hrows live hempty hfew w hw hnone =>
    simp only [ho, hrows, if_neg hempty, if_neg hfew, hpick hrows, hw, hnone, live]
  | case7 ho rows hrows live hempty hfew w hw rest hrest =>
    simp only [ho, hrows, if_neg hempty, if_neg hfew, hpick hrows, hw, hrest, live]

/-- The loop over inequalities has ended after more rounds than there are names. -/
theorem rounds_eq_error {k : Nat} (h : Covers names cs) (hk : names.length < k) :
    rounds b m k cs = .error (dropInequalities b m names cs) := by
  induction k generalizing m names cs with
  | zero => exact absurd hk (Nat.not_lt_zero _)
  | succ k ih =>
    rw [dropInequalities_eq_round h, rounds]
    cases hround : round b m cs with
    | error f => rfl
    | ok p =>
      obtain ⟨v, next⟩ := p
      have hmem : v ∈ names := h.mem (mentions_round hround).1
      have hlen : (names.erase v).length < k := by
        have hpos := List.length_pos_of_mem hmem
        rw [List.length_erase_of_mem hmem]
        omega
      exact ih (h.round hround) hlen

/-- It makes no difference to what is found which further names there are. -/
theorem dropInequalities_of_covers {names' : List String} (h : Covers names cs)
    (h' : Covers names' cs) : dropInequalities b m names cs = dropInequalities b m names' cs := by
  have hrounds : ∀ {ns}, Covers ns cs → ns.length < names.length + names'.length + 1 →
      rounds b m (names.length + names'.length + 1) cs = .error (dropInequalities b m ns cs) :=
    rounds_eq_error
  exact Except.error.inj ((hrounds h (by omega)).symm.trans (hrounds h' (by omega)))

/-- Rounds go the same way with two budgets if each of them does, up to one that is given up for a
certain kind of reason. `R` relates the moments at which the rounds of either run begin. -/
theorem rounds_or_eq {b' : Budget} {R : Moment → Moment → Prop} {P : Finding → Prop} {m' : Moment}
    {k : Nat} (hnext : ∀ m n, R m n → R m.next n.next)
    (hround : ∀ m n cs, R m n →
      (∃ f, P f ∧ round b m cs = .error f) ∨ round b' n cs = round b m cs)
    (hR : R m m') :
    (∃ f, P f ∧ rounds b m k cs = .error f) ∨ rounds b' m' k cs = rounds b m k cs := by
  induction k generalizing m m' cs with
  | zero => exact .inr rfl
  | succ k ih =>
    simp only [rounds]
    rcases hround m m' cs hR with ⟨f, hf, hstop⟩ | hsame
    · rw [hstop]
      exact .inl ⟨f, hf, rfl⟩
    · rw [hsame]
      cases round b m cs with
      | error f => exact .inr rfl
      | ok p => exact ih (hnext m m' hR)

/-- The same for the whole loop over inequalities. -/
theorem dropInequalities_or_eq {b' : Budget} {R : Moment → Moment → Prop} {P : Finding → Prop}
    {m' : Moment} (hnext : ∀ m n, R m n → R m.next n.next)
    (hround : ∀ m n cs, R m n →
      (∃ f, P f ∧ round b m cs = .error f) ∨ round b' n cs = round b m cs)
    (hR : R m m') (h : Covers names cs) :
    P (dropInequalities b m names cs) ∨
      dropInequalities b' m' names cs = dropInequalities b m names cs := by
  have hend : rounds b m (names.length + 1) cs = .error (dropInequalities b m names cs) :=
    rounds_eq_error h (Nat.lt_succ_self _)
  have hend' : rounds b' m' (names.length + 1) cs = .error (dropInequalities b' m' names cs) :=
    rounds_eq_error h (Nat.lt_succ_self _)
  rcases rounds_or_eq (k := names.length + 1) hnext hround hR with ⟨f, hf, hstop⟩ | hsame
  · rw [hend] at hstop
    obtain rfl := Except.error.inj hstop
    exact .inl hf
  · rw [hend, hend'] at hsame
    exact .inr (Except.error.inj hsame)

/-! ## Turns of the loop over equalities -/

variable {w : Watch} {e : Constraint} {name : String}
  {rest rest' inequalities inequalities' : List Constraint}

/-- One turn of the loop over equalities, which takes the equality `e` away: what it found, or what
it makes of the other equalities and of the inequalities. -/
def turn (w : Watch) (m : Moment) (e : Constraint) (rest inequalities : List Constraint) :
    Except Finding (List Constraint × List Constraint) :=
  match (w.seen m).obstacle? with
  | some o => .error (.unknown o)
  | none =>
    match e.linear.coeffs.entries with
    | [] => if e.holdsTrivially then .ok (rest, inequalities) else .error (.unsat .equalities)
    | (name, c) :: _ =>
      match solveFor? e.linear name c with
      | none => .error (.unknown .overflow)
      | some r =>
        match substituteAll name r rest, substituteAll name r inequalities with
        | some rest', some inequalities' => .ok (rest', inequalities')
        | _, _ => .error (.unknown .overflow)

/-- The loop over equalities does its first turn and then goes on. -/
theorem dropEqualities_cons (w : Watch) (m : Moment) (e : Constraint)
    (rest inequalities : List Constraint) : dropEqualities w m inequalities (e :: rest) =
    match turn w m e rest inequalities with
    | .error f => .error f
    | .ok (rest', inequalities') => dropEqualities w m.next inequalities' rest' := by
  unfold turn
  rw [dropEqualities]
  cases (w.seen m).obstacle? with
  | some o => rfl
  | none =>
    cases e.linear.coeffs.entries with
    | nil =>
      dsimp only
      split <;> rfl
    | cons p t =>
      obtain ⟨v, c⟩ := p
      dsimp only
      cases solveFor? e.linear v c with
      | none => rfl
      | some r =>
        dsimp only
        split
        · next hrest hin => rw [hrest, hin]
        · next hnot =>
          cases hrest : substituteAll v r rest with
          | none => rfl
          | some rest' =>
            cases hin : substituteAll v r inequalities with
            | none => rfl
            | some inequalities' => exact absurd hin (hnot _ _ hrest)

theorem length_turn (h : turn w m e rest inequalities = .ok (rest', inequalities')) :
    rest'.length = rest.length := by
  unfold turn at h
  split at h
  · cases h
  · split at h
    · split at h
      · cases h
        rfl
      · cases h
    · split at h
      · cases h
      · split at h
        · next hrest _ =>
          cases h
          exact length_substituteAll hrest
        · cases h

theorem notMem_variableNames_substitute? {l l' r : Linear} (h : l.substitute? name r = some l')
    (hr : name ∉ r.variableNames) : name ∉ l'.variableNames ∧
      ∀ n ∈ l'.variableNames, n ∈ l.variableNames ∨ n ∈ r.variableNames := by
  unfold Linear.substitute? at h
  split at h
  · next hz =>
    obtain rfl := Option.some.inj h
    exact ⟨notMem_of_coeff_eq_zero (Fraction.isZero_iff.mp hz), fun n hn => .inl hn⟩
  · split at h
    · next s hs =>
      have hnames : ∀ n ∈ l'.variableNames,
          n ∈ (l.erase name).variableNames ∨ n ∈ r.variableNames := fun n hn =>
        (Linear.variableNames_add? h hn).imp_right (Linear.variableNames_scale? hs)
      refine ⟨fun hn => ?_, fun n hn => ?_⟩
      · rcases hnames name hn with hn | hn
        · exact Linear.notMem_variableNames_erase l name hn
        · exact hr hn
      · exact (hnames n hn).imp_left fun hn => (Linear.mem_variableNames_erase.mp hn).2
    · cases h

theorem not_mentions_nil : ¬ Mentions [] n := by simp [Mentions]

theorem mentions_substituteAll {r : Linear} (h : substituteAll name r cs = some next)
    (hr : name ∉ r.variableNames) : ¬ Mentions next name ∧
      ∀ n, Mentions next n → Mentions cs n ∨ n ∈ r.variableNames := by
  induction cs generalizing next with
  | nil =>
    obtain rfl := Option.some.inj h
    exact ⟨not_mentions_nil, fun n hn => absurd hn not_mentions_nil⟩
  | cons c t ih =>
    simp only [substituteAll] at h
    split at h
    · next l u hl hu =>
      obtain rfl := Option.some.inj h
      obtain ⟨hgone, hold⟩ := ih hu
      obtain ⟨hgone', hold'⟩ := notMem_variableNames_substitute? hl hr
      refine ⟨?_, ?_⟩
      · rintro ⟨d, hd, hn⟩
        rcases List.mem_cons.mp hd with rfl | hd
        · exact hgone' hn
        · exact hgone ⟨d, hd, hn⟩
      · rintro n ⟨d, hd, hn⟩
        rcases List.mem_cons.mp hd with rfl | hd
        · exact (hold' n hn).imp_left fun hn => ⟨c, List.mem_cons_self, hn⟩
        · refine (hold n ⟨d, hd, hn⟩).imp_left ?_
          rintro ⟨d', hd', hn'⟩
          exact ⟨d', List.mem_cons_of_mem _ hd', hn'⟩
    · cases h

/-- The form for which a variable is solved mentions the other variables of its equality. -/
theorem variableNames_solveFor? {l r : Linear} {c : Fraction} (h : solveFor? l name c = some r) :
    ∀ n ∈ r.variableNames, n ≠ name ∧ n ∈ l.variableNames := by
  unfold solveFor? at h
  split at h
  · cases h
  · split at h
    · cases h
    · exact fun n hn => Linear.mem_variableNames_erase.mp (Linear.variableNames_scale? h hn)

theorem mentions_append_iff {ds : List Constraint} :
    Mentions (cs ++ ds) n ↔ Mentions cs n ∨ Mentions ds n := by
  simp [Mentions, or_and_right, exists_or]

/-- A turn that does not end the loop leaves nothing with the variable that its equality was solved
for, and no variable that was not there before. -/
theorem mentions_turn {ns : List String} (hname : e.linear.variableNames = name :: ns)
    (h : turn w m e rest inequalities = .ok (rest', inequalities')) :
    rest'.length = rest.length ∧ ¬ Mentions (rest' ++ inequalities') name ∧
      ∀ n, Mentions (rest' ++ inequalities') n → Mentions (e :: (rest ++ inequalities)) n := by
  unfold turn at h
  split at h
  · cases h
  · split at h
    · next hnil =>
      rw [Linear.variableNames, Table.keys, hnil] at hname
      cases hname
    · next v c t hentries =>
      rw [Linear.variableNames, Table.keys, hentries] at hname
      obtain ⟨rfl, -⟩ := List.cons.inj hname
      split at h
      · cases h
      · next r hr =>
        split at h
        · next s s' hs hs' =>
          obtain ⟨rfl, rfl⟩ := Prod.mk.inj (Except.ok.inj h)
          have hothers := variableNames_solveFor? hr
          have hnot : v ∉ r.variableNames := fun hv => (hothers v hv).1 rfl
          obtain ⟨hgone, hold⟩ := mentions_substituteAll hs hnot
          obtain ⟨hgone', hold'⟩ := mentions_substituteAll hs' hnot
          refine ⟨length_substituteAll hs, ?_, fun n hn => ?_⟩
          · exact fun hv => (mentions_append_iff.mp hv).elim hgone hgone'
          · have hback : Mentions (rest ++ inequalities) n ∨ n ∈ r.variableNames := by
              rw [mentions_append_iff]
              rcases mentions_append_iff.mp hn with hn | hn
              · exact (hold n hn).imp_left .inl
              · exact (hold' n hn).imp_left .inr
            rcases hback with ⟨d, hd, hn⟩ | hn
            · exact ⟨d, List.mem_cons_of_mem _ hd, hn⟩
            · exact ⟨e, List.mem_cons_self, (hothers n hn).2⟩
        · cases h

/-! ## The end of elimination -/

/-- Elimination comes to an end. A turn of the loop over equalities ends it, or there is one
equality less, nothing mentions the variable for which the equality was solved, and no variable is
new. A round of the loop over inequalities ends it, or nothing mentions the variable that was
picked, and no variable is new. So the rounds are at most one more than the variables of the rows
that are left when there are no equalities any more. -/
theorem elimination_ends (b : Budget) (cs : List Constraint) :
    (∀ m e rest inequalities name names, e.linear.variableNames = name :: names →
      match turn b.watch m e rest inequalities with
      | .error f => dropEqualities b.watch m inequalities (e :: rest) = .error f
      | .ok (rest', inequalities') =>
        dropEqualities b.watch m inequalities (e :: rest) =
            dropEqualities b.watch m.next inequalities' rest' ∧
          rest'.length = rest.length ∧ ¬ Mentions (rest' ++ inequalities') name ∧
          ∀ n, Mentions (rest' ++ inequalities') n → Mentions (e :: (rest ++ inequalities)) n) ∧
    (∀ m rows,
      match round b m rows with
      | .error f => dropInequalities b m (variablesOf rows) rows = f
      | .ok (v, next) =>
        dropInequalities b m (variablesOf rows) rows =
            dropInequalities b m.next (variablesOf next) next ∧
          v ∈ variablesOf rows ∧ v ∉ variablesOf next ∧ variablesOf next ⊆ variablesOf rows) ∧
    ∀ m,
      match dropEqualities b.watch m (cs.filter fun c => c.relation ≠ .eq)
          (cs.filter fun c => c.relation = .eq).reverse with
      | .error f => decideConjunction b m cs = f
      | .ok rows =>
        rounds b (m.later (cs.filter fun c => c.relation = .eq).length)
          ((variablesOf rows).length + 1) rows = .error (decideConjunction b m cs) := by
  refine ⟨fun m e rest inequalities name names hname => ?_, fun m rows => ?_, fun m => ?_⟩
  · have hcons := dropEqualities_cons b.watch m e rest inequalities
    cases hturn : turn b.watch m e rest inequalities with
    | error f =>
      rw [hturn] at hcons
      exact hcons
    | ok p =>
      obtain ⟨rest', inequalities'⟩ := p
      rw [hturn] at hcons
      exact ⟨hcons, mentions_turn hname hturn⟩
  · have hfirst := dropInequalities_eq_round (b := b) (m := m) (covers_variablesOf rows)
    cases hround : round b m rows with
    | error f =>
      rw [hround] at hfirst
      exact hfirst
    | ok p =>
      obtain ⟨v, next⟩ := p
      rw [hround] at hfirst
      obtain ⟨hv, hgone, hold⟩ := mentions_round hround
      have hnames := (covers_variablesOf rows).round hround
      refine ⟨hfirst.trans (dropInequalities_of_covers hnames (covers_variablesOf next)),
        mem_variablesOf_iff.mpr hv, fun hn => hgone (mem_variablesOf_iff.mp hn), fun n hn => ?_⟩
      exact mem_variablesOf_iff.mpr (hold n (mem_variablesOf_iff.mp hn))
  · unfold decideConjunction
    dsimp only
    cases dropEqualities b.watch m (cs.filter fun c => c.relation ≠ .eq)
        (cs.filter fun c => c.relation = .eq).reverse with
    | error f => rfl
    | ok rows => exact rounds_eq_error (covers_variablesOf rows) (Nat.lt_succ_self _)

/-! ## Elimination in four rows -/

/-- The constraint of a predicate that has one. -/
def rowOf (lhs : Expr) (op : Comparison) (rhs : Expr) : Constraint :=
  (Constraint.ofPredicate 28 ⟨lhs, op, rhs⟩).toOption.getD default

/-- The row that says that `x` is the sum of `y` and `z`. -/
def sumRow : Constraint := rowOf (.var "x") .eq (.add (.var "y") (.var "z"))

/-- Rows that say that `x` is between one and `z`, and between `y` and ten. -/
def boundRows : List Constraint :=
  [rowOf (.lit "1") .le (.var "x"), rowOf (.var "x") .le (.var "z"),
    rowOf (.var "x") .le (.lit "10"), rowOf (.var "y") .lt (.var "x")]

/-- What the sum makes of these rows: `y` and `z` sum up to between one and ten, `y` is at most zero
and `z` is above it. -/
def leftRows : List Constraint :=
  [rowOf (.lit "1") .le (.add (.var "y") (.var "z")), rowOf (.var "y") .le (.lit "0"),
    rowOf (.add (.var "y") (.var "z")) .le (.lit "10"), rowOf (.lit "0") .lt (.var "z")]

/-- What is left of these rows without `y`. -/
def lastRows : List Constraint :=
  [rowOf (.lit "0") .lt (.var "z"), rowOf (.lit "1") .le (.var "z"),
    rowOf (.lit "1") .le (.lit "10")]

/-- One turn solves the sum for `x`. Two variables are left, of which `y` is eliminated first, and
the third round ends the loop over inequalities with a solution. -/
theorem elimination_ends_sumRow :
    sumRow.linear.variableNames = ["x", "y", "z"] ∧
      turn .running .start sumRow [] boundRows = .ok ([], leftRows) ∧ ¬ Mentions leftRows "x" ∧
      variablesOf leftRows = ["y", "z"] ∧
      round (.usual .running) .start leftRows = .ok ("y", lastRows) ∧
      "y" ∉ variablesOf lastRows ∧
      rounds (.usual .running) (Moment.start.later 1) 3 leftRows = .error .sat ∧
      decideConjunction (.usual .running) .start (sumRow :: boundRows) = .sat := by
  have hnames : sumRow.linear.variableNames = ["x", "y", "z"] := by decide +kernel
  have hturn : turn .running .start sumRow [] boundRows = .ok ([], leftRows) := by decide +kernel
  have hdrop : dropEqualities .running .start
      ((sumRow :: boundRows).filter fun c => c.relation ≠ .eq)
      ((sumRow :: boundRows).filter fun c => c.relation = .eq).reverse = .ok leftRows := by
    decide +kernel
  have hleft : variablesOf leftRows = ["y", "z"] := by decide +kernel
  -- It makes no difference at which moment a round begins that nothing can stop.
  have hround : ∀ m rows, round (.usual .running) m rows = round (.usual .running) .start rows :=
    fun _ _ => rfl
  have hfirst : round (.usual .running) .start leftRows = .ok ("y", lastRows) := by
    have hlive : liveRows leftRows = .ok leftRows := by decide +kernel
    have hsort : sortRows leftRows = dropRepeats leftRows := sortRows_of_sorted (by decide +kernel)
    simp only [round, hlive, hsort]
    decide +kernel
  have hsecond : round (.usual .running) .start lastRows = .ok ("z", []) := by
    have hlive : liveRows lastRows = .ok (lastRows.take 2) := by decide +kernel
    have hsort : sortRows (lastRows.take 2) = dropRepeats (lastRows.take 2) :=
      sortRows_of_sorted (by decide +kernel)
    simp only [round, hlive, hsort]
    decide +kernel
  have hthird : round (.usual .running) .start [] = .error .sat := by decide +kernel
  have hsat : rounds (.usual .running) (Moment.start.later 1) 3 leftRows = .error .sat := by
    simp only [rounds, hround _ leftRows, hround _ lastRows, hround _ [], hfirst, hsecond, hthird]
  have hlength : ((sumRow :: boundRows).filter fun c => c.relation = .eq).length = 1 := by
    decide +kernel
  obtain ⟨hturns, hrounds, hends⟩ := elimination_ends (.usual .running) (sumRow :: boundRows)
  have hgone := hturns .start sumRow [] boundRows "x" ["y", "z"] hnames
  have hpicked := hrounds .start leftRows
  have hend := hends .start
  rw [show (Budget.usual .running).watch = .running from rfl] at hgone hend
  rw [hturn] at hgone
  rw [hfirst] at hpicked
  rw [hdrop, hlength] at hend
  dsimp only at hgone hpicked hend
  rw [hleft] at hend
  exact ⟨hnames, hturn, hgone.2.2.1, hleft, hfirst, hpicked.2.2.1, hsat,
    (Except.error.inj (hsat.symm.trans hend)).symm⟩

end LedgerGate.Solver

import LedgerGate.Proofs.Intent.Equalities
import LedgerGate.Verifier.Conservation

/-!
# The exact delta

What the assignments of an intent give an account is the value of the assigned term, where the
balances before the transition are those of the snapshot and the other variables have the values
that predicates give them (`Conservation.value?_of_evaluate`).
-/

namespace LedgerGate.Conservation

open Delta (Failure orViolation)

variable {i : Intent} {balances : Balances} {precision : Nat} {ρ : Values}

theorem orViolation_ok {α : Type} {r : Except Fault α} {a : α} (h : orViolation r = .ok a) :
    r = .ok a := by
  cases r with
  | error e => exact absurd h nofun
  | ok b => exact congrArg _ (Except.ok.inj h)

/-! ## Values that predicates give -/

theorem equation?_eq_some_iff {p : Predicate} {name text : String} :
    equation? p = some (name, text) ↔ p.Equates name (.lit text) := by
  obtain ⟨lhs, op, rhs⟩ := p
  unfold equation? Predicate.Equates
  dsimp only
  split
  · next hop =>
    split
    · simp [hop]
    · simp [hop, and_comm]
    · next hvarlit hlitvar =>
      refine iff_of_false nofun ?_
      rintro ⟨-, ⟨hl, hr⟩ | ⟨hl, hr⟩⟩
      · exact hvarlit _ _ hl hr
      · exact hlitvar _ _ hl hr
  · next hop => exact iff_of_false nofun fun h => hop h.1

/-- A predicate gives a variable a literal that has the value that the variable may have already,
or leaves everything as it is. -/
theorem bind_ok {b b' : Table Decimal} {p : Predicate} (h : bind i precision b p = .ok b') :
    (∀ name text, ¬ i.Binds p name text) ∧ b' = b ∨
      ∃ name text v, i.Binds p name text ∧ Decimal.parse text precision = .ok v ∧
        (∀ w, b.get? name = some w → w.value = v.value) ∧ b' = b.insert name v := by
  unfold bind at h
  split at h
  · next hnone =>
    refine .inl ⟨fun name text hbinds => ?_, (Except.ok.inj h).symm⟩
    cases hnone.symm.trans (equation?_eq_some_iff.mpr hbinds.1)
  · next name text heq =>
    split at h
    · next hkept =>
      refine .inl ⟨fun name' text' hbinds => ?_, (Except.ok.inj h).symm⟩
      obtain ⟨hequates, hplain, hinside⟩ := hbinds
      cases heq.symm.trans (equation?_eq_some_iff.mpr hequates)
      rw [BalanceName.isBalance_eq_false_iff.mpr hplain, hinside] at hkept
      exact absurd hkept Bool.false_ne_true
    · next hbound =>
      rw [Bool.or_eq_true, not_or, Bool.not_eq_true, Bool.not_eq_true,
        BalanceName.isBalance_eq_false_iff] at hbound
      have hbinds : i.Binds p name text := ⟨equation?_eq_some_iff.mp heq, hbound⟩
      split at h
      · cases h
      · next v hv =>
        refine .inr ⟨name, text, v, hbinds, orViolation_ok hv, ?_⟩
        split at h
        · next w hw =>
          split at h
          · next hsame =>
            refine ⟨fun w' hw' => ?_, (Except.ok.inj h).symm⟩
            obtain rfl := Option.some.inj (hw.symm.trans hw')
            exact Decimal.value_eq_of_sameValue hsame
          · cases h
        · next hnone =>
          refine ⟨fun w hw => ?_, (Except.ok.inj h).symm⟩
          cases hnone.symm.trans hw

/-- A value that is bound is the literal of a predicate. -/
theorem bindAll_ok {b b' : Table Decimal} {ps : List Predicate}
    (h : bindAll i precision b ps = .ok b') {name : String} {v : Decimal}
    (hv : b'.get? name = some v) :
    b.get? name = some v ∨ ∃ p ∈ ps, ∃ text, i.Binds p name text ∧
      Decimal.parse text precision = .ok v := by
  induction ps generalizing b with
  | nil =>
    obtain rfl := Except.ok.inj h
    exact .inl hv
  | cons p r ih =>
    unfold bindAll at h
    split at h
    · exact absurd h nofun
    · next b₁ hb₁ =>
      rcases ih h with hold | ⟨q, hq, hnew⟩
      · obtain ⟨-, rfl⟩ | ⟨n, text, w, hbinds, hw, -, rfl⟩ := bind_ok hb₁
        · exact .inl hold
        · rw [Table.get?_insert] at hold
          split at hold
          · next hn =>
            subst hn
            obtain rfl := Option.some.inj hold
            exact .inr ⟨p, List.mem_cons_self, text, hbinds, hw⟩
          · exact .inl hold
      · exact .inr ⟨q, List.mem_cons_of_mem _ hq, hnew⟩

/-- Where a predicate is true that gives a variable a value, the variable has it. -/
theorem value_of_equation? {p : Predicate} {name text : String} {v : Decimal}
    (h : equation? p = some (name, text)) (hv : Decimal.parse text precision = .ok v)
    (hp : p.Holds precision ρ) : ρ name = v.value := by
  obtain ⟨x, y, hx, hy, hxy⟩ := hp
  obtain ⟨hop, ⟨hl, hr⟩ | ⟨hl, hr⟩⟩ := equation?_eq_some_iff.mp h
  · rw [hl, Expr.value?] at hx
    rw [hr, Expr.value?, hv] at hy
    obtain rfl := Option.some.inj hx
    obtain rfl := Option.some.inj hy
    rwa [hop] at hxy
  · rw [hl, Expr.value?, hv] at hx
    rw [hr, Expr.value?] at hy
    obtain rfl := Option.some.inj hx
    obtain rfl := Option.some.inj hy
    rw [hop] at hxy
    exact hxy.symm

/-! ## Values of terms -/

/-- Whether values are those that a term is evaluated with: the balances of a snapshot before
the transition, and the bound values of other variables. -/
structure Agrees (balances : Balances) (bindings : Table Decimal) (ρ : Values) (name : String) :
    Prop where
  before : ∀ account, BalanceName.ofVariable? name = some ⟨account, false⟩ →
    ρ name = (balances.of account).value
  bound : BalanceName.ofVariable? name = none → ∀ v, bindings.get? name = some v →
    ρ name = v.value

theorem value_of_valueOf {bindings : Table Decimal} {name : String} {d : Decimal}
    (h : valueOf balances bindings name = .ok d) (hρ : Agrees balances bindings ρ name) :
    ρ name = d.value := by
  unfold valueOf at h
  split at h
  · next account hname =>
    obtain rfl := Except.ok.inj h
    exact hρ.before account hname
  · exact absurd h nofun
  · next hname =>
    split at h
    · next v hv =>
      obtain rfl := Except.ok.inj h
      exact hρ.bound hname _ hv
    · exact absurd h nofun

theorem both_ok {a b : Except Failure Decimal} {f : Decimal → Decimal → Except Fault Decimal}
    {d : Decimal} (h : both a b f = .ok d) : ∃ x y, a = .ok x ∧ b = .ok y ∧ f x y = .ok d := by
  cases a with
  | error e => exact absurd h nofun
  | ok x =>
    cases b with
    | error e => exact absurd h nofun
    | ok y => exact ⟨x, y, rfl, rfl, orViolation_ok h⟩

/-- What a term evaluates to is its exact value. -/
theorem value?_of_evaluate {bindings : Table Decimal} {e : Expr} {d : Decimal}
    (h : evaluate balances bindings precision e = .ok d)
    (hρ : ∀ n ∈ e.occurrences, Agrees balances bindings ρ n) :
    e.value? precision ρ = some d.value := by
  induction e generalizing d with
  | lit text => rw [Expr.value?, orViolation_ok h]; rfl
  | var name => rw [Expr.value?, value_of_valueOf h (hρ name List.mem_cons_self)]
  | neg a ih =>
    rw [evaluate] at h
    split at h
    · cases h
    · next x hx =>
      rw [Expr.value?, ih hx hρ, Option.map_some, Decimal.value_neg (orViolation_ok h)]
  | add a b iha ihb =>
    obtain ⟨ha, hb⟩ := List.forall_mem_append.mp hρ
    obtain ⟨x, y, hx, hy, h⟩ := both_ok h
    rw [Expr.value?, iha hx ha, ihb hy hb, Decimal.value_add h]
    rfl
  | sub a b iha ihb =>
    obtain ⟨ha, hb⟩ := List.forall_mem_append.mp hρ
    obtain ⟨x, y, hx, hy, h⟩ := both_ok h
    rw [Expr.value?, iha hx ha, ihb hy hb, Decimal.value_sub h]
    rfl
  | mul a b iha ihb =>
    obtain ⟨ha, hb⟩ := List.forall_mem_append.mp hρ
    obtain ⟨x, y, hx, hy, h⟩ := both_ok h
    rw [Expr.value?, iha hx ha, ihb hy hb, Decimal.value_mul h]
    rfl

/-! ## Changes -/

/-- Each assignment is recorded with the value of its term, and earlier changes stay. -/
theorem assignAll_ok {bindings : Table Decimal} {changes changes' : Table Change}
    {l : List (String × Expr)}
    (h : assignAll balances bindings precision changes l = .ok changes') :
    (∀ account c, changes.get? account = some c → changes'.get? account = some c) ∧
      ∀ p ∈ l, ∃ after, evaluate balances bindings precision p.2 = .ok after ∧
        changes'.get? p.1 = some ⟨balances.of p.1, after⟩ := by
  induction l generalizing changes with
  | nil =>
    obtain rfl := Except.ok.inj h
    exact ⟨fun _ _ hc => hc, fun p hp => absurd hp List.not_mem_nil⟩
  | cons p r ih =>
    obtain ⟨account, term⟩ := p
    unfold assignAll at h
    split at h
    · exact absurd h nofun
    · next after hafter =>
      split at h
      · exact absurd h nofun
      · next hnew =>
        obtain ⟨hold, hrest⟩ := ih h
        refine ⟨fun a c hc => hold a c ?_, List.forall_mem_cons.mpr ⟨⟨after, hafter, ?_⟩, hrest⟩⟩
        · rw [Table.get?_insert, if_neg, hc]
          rintro rfl
          exact hnew (by rw [Table.contains, hc]; rfl)
        · exact hold account _ (Table.get?_insert_self ..)

/-- Only what is assigned is changed. -/
theorem assigned_of_assignAll {bindings : Table Decimal} {changes changes' : Table Change}
    {l : List (String × Expr)}
    (h : assignAll balances bindings precision changes l = .ok changes') {account : String}
    {c : Change} (hc : changes'.get? account = some c) :
    changes.get? account = some c ∨ ∃ term, (account, term) ∈ l := by
  induction l generalizing changes with
  | nil =>
    cases h
    exact .inl hc
  | cons p r ih =>
    obtain ⟨acc, term⟩ := p
    unfold assignAll at h
    split at h
    · exact absurd h nofun
    · split at h
      · exact absurd h nofun
      · rcases ih h with hold | ⟨t, ht⟩
        · rw [Table.get?_insert] at hold
          by_cases hacc : acc = account
          · subst hacc
            exact .inr ⟨term, List.mem_cons_self⟩
          · rw [if_neg hacc] at hold
            exact .inl hold
        · exact .inr ⟨t, List.mem_cons_of_mem _ ht⟩

/-- Every change starts from the balance of the snapshot. -/
theorem before_of_assignAll {bindings : Table Decimal} {changes changes' : Table Change}
    {l : List (String × Expr)}
    (h : assignAll balances bindings precision changes l = .ok changes')
    (hchanges : ∀ p ∈ changes.entries, p.2.before = balances.of p.1) :
    ∀ p ∈ changes'.entries, p.2.before = balances.of p.1 := by
  induction l generalizing changes with
  | nil =>
    obtain rfl := Except.ok.inj h
    exact hchanges
  | cons p r ih =>
    unfold assignAll at h
    split at h
    · exact absurd h nofun
    · split at h
      · exact absurd h nofun
      · refine ih h fun q hq => ?_
        rcases Table.mem_insertEntry hq with rfl | hq
        · rfl
        · exact hchanges q hq

/-- A delta is what the assignments of an intent make with the values that its predicates bind. -/
theorem derive_eq_ok_iff {δ : Delta} : derive i balances precision = .ok δ ↔
    ∃ b, bindings i precision = .ok b ∧
      assignAll balances b precision Table.empty i.assignments = .ok δ.changes := by
  obtain ⟨changes⟩ := δ
  unfold derive
  cases bindings i precision with
  | error e => simp
  | ok b => cases h : assignAll balances b precision Table.empty i.assignments <;> simp [h]

theorem before_of_derive {δ : Delta} (h : derive i balances precision = .ok δ) :
    ∀ p ∈ δ.changes.entries, p.2.before = balances.of p.1 := by
  obtain ⟨b, -, hchanges⟩ := derive_eq_ok_iff.mp h
  exact before_of_assignAll hchanges fun p hp => absurd hp List.not_mem_nil

/-- The accounts that a delta changes are those that the intent assigns. -/
theorem assigned_of_derive {δ : Delta} (h : derive i balances precision = .ok δ)
    {account : String} {c : Change} (hc : δ.changes.get? account = some c) :
    ∃ term, (account, term) ∈ i.assignments := by
  obtain ⟨b, -, hchanges⟩ := derive_eq_ok_iff.mp h
  exact (assigned_of_assignAll hchanges hc).resolve_left nofun

/-- The delta of an intent gives each assigned account the value of its term, with variables
bound by the predicates of the intent. -/
theorem derive_ok {δ : Delta} (h : derive i balances precision = .ok δ) :
    ∃ b, (∀ name v, b.get? name = some v → BalanceName.isBalance name = false ∧
        ∃ p ∈ i.predicates, ∃ text, equation? p = some (name, text) ∧
          Decimal.parse text precision = .ok v) ∧
      ∀ p ∈ i.assignments, ∃ after, evaluate balances b precision p.2 = .ok after ∧
        δ.changes.get? p.1 = some ⟨balances.of p.1, after⟩ := by
  obtain ⟨b, hb, hchanges⟩ := derive_eq_ok_iff.mp h
  refine ⟨b, fun name v hv => ?_, (assignAll_ok hchanges).2⟩
  obtain ⟨p, hp, text, ⟨hequates, hplain, -⟩, hparse⟩ := (bindAll_ok hb hv).resolve_left nofun
  exact ⟨BalanceName.isBalance_eq_false_iff.mpr hplain, p, hp, text,
    equation?_eq_some_iff.mpr hequates, hparse⟩

end LedgerGate.Conservation

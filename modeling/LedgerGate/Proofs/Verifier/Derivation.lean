import LedgerGate.Proofs.Solver.Translation
import LedgerGate.Proofs.Verifier.Conservation

/-!
# What a derived delta is

A delta that is derived changes the accounts that are assigned, each of which is assigned once,
from the balances of the snapshot to the values of the terms (`Delta.IsExact`). The values are
those of rational arithmetic, so a term that also has a linear form has the value of that form
(`Conservation.derive_exact`).
-/

namespace LedgerGate

/-- Whether a delta is what an intent assigns: its accounts are those that are assigned, each of
them once, and each goes from its balance to the value of the term it is assigned, in which all
variables have given values. -/
structure Delta.IsExact (δ : Delta) (i : Intent) (balances : Balances) (precision : Nat)
    (ρ : Values) : Prop where
  accounts : ∀ account, δ.changes.contains account = true ↔
    ∃ p ∈ i.verify, ∃ term, p.Assigns account term
  change : ∀ account c, δ.changes.get? account = some c → c.before = balances.of account ∧
    ∃ term, i.AssignsOnce account term ∧ (∀ n ∈ term.occurrences, i.IsGiven n) ∧
      term.value? precision ρ = some c.after.value

namespace Conservation

variable {i : Intent} {balances : Balances} {precision : Nat}

/-- The values that terms are evaluated with. -/
def inputs (balances : Balances) (bindings : Table Decimal) : Values :=
  balances.asValues fun name => ((bindings.get? name).map Decimal.value).getD 0

theorem agrees_inputs (balances : Balances) (bindings : Table Decimal) (name : String) :
    Agrees balances bindings (inputs balances bindings) name where
  before := by
    intro account h
    exact Balances.asValues_before (BalanceName.beforeAccount?_eq_some_iff.mpr h)
  bound := by
    intro h v hv
    have hnot : BalanceName.beforeAccount? name = none := by rw [BalanceName.beforeAccount?, h]
    rw [inputs, Balances.asValues_other hnot, hv]
    rfl

/-! ## Literals -/

/-- A variable that has a value keeps it, though the literal may be spelled otherwise. -/
theorem kept_of_bindAll {b b' : Table Decimal} {ps : List Predicate}
    (h : bindAll i precision b ps = .ok b') {name : String} {w : Decimal}
    (hw : b.get? name = some w) : ∃ v, b'.get? name = some v ∧ v.value = w.value := by
  induction ps generalizing b w with
  | nil =>
    obtain rfl := Except.ok.inj h
    exact ⟨w, hw, rfl⟩
  | cons p r ih =>
    unfold bindAll at h
    split at h
    · cases h
    · next b₁ hb₁ =>
      obtain ⟨-, rfl⟩ | ⟨n, text, v, -, -, hsame, rfl⟩ := bind_ok hb₁
      · exact ih h hw
      · by_cases hn : n = name
        · subst hn
          obtain ⟨v', hv', hvalue⟩ := ih h (Table.get?_insert_self ..)
          exact ⟨v', hv', hvalue.trans (hsame w hw).symm⟩
        · exact ih h (by rwa [Table.get?_insert, if_neg hn])

/-- Every literal that a predicate gives a variable can be read, and has the value that is bound. -/
theorem literal_of_bindAll {b b' : Table Decimal} {ps : List Predicate}
    (h : bindAll i precision b ps = .ok b') {p : Predicate} (hp : p ∈ ps) {name text : String}
    (hbinds : i.Binds p name text) : ∃ v w, Decimal.parse text precision = .ok v ∧
      b'.get? name = some w ∧ w.value = v.value := by
  induction ps generalizing b with
  | nil => cases hp
  | cons q r ih =>
    unfold bindAll at h
    split at h
    · cases h
    · next b₁ hb₁ =>
      rcases List.mem_cons.mp hp with rfl | hp
      · obtain ⟨hnot, -⟩ | ⟨n, t, v, hbinds', hv, -, rfl⟩ := bind_ok hb₁
        · exact absurd hbinds (hnot name text)
        · have heq := equation?_eq_some_iff.mpr hbinds.1
          cases heq.symm.trans (equation?_eq_some_iff.mpr hbinds'.1)
          obtain ⟨w, hw, hvalue⟩ := kept_of_bindAll h (Table.get?_insert_self ..)
          exact ⟨v, w, hv, hw, hvalue⟩
      · exact ih h hp

theorem areGiven_inputs {b : Table Decimal} (h : bindings i precision = .ok b) :
    i.AreGiven balances precision (inputs balances b) where
  before := by
    intro account haccount
    exact (agrees_inputs balances b _).before account
      (BalanceName.ofVariable?_eq_some_iff.mpr ⟨haccount, rfl⟩)
  literal := by
    intro p hp name text hbinds
    obtain ⟨v, w, hv, hw, hvalue⟩ := literal_of_bindAll h hp hbinds
    have hplain := BalanceName.ofVariable?_eq_none_iff.mpr hbinds.2.1
    exact ⟨v, hv, ((agrees_inputs balances b name).bound hplain w hw).trans hvalue⟩

/-! ## Variables of a term -/

/-- A term that can be evaluated has only variables that can. -/
theorem valueOf_of_evaluate {b : Table Decimal} {e : Expr} {d : Decimal}
    (h : evaluate balances b precision e = .ok d) {n : String} (hn : n ∈ e.occurrences) :
    ∃ v, valueOf balances b n = .ok v := by
  induction e generalizing d with
  | lit text => cases hn
  | var name =>
    rw [List.mem_singleton.mp hn]
    exact ⟨d, h⟩
  | neg a ih =>
    rw [evaluate] at h
    split at h
    · cases h
    · next x hx => exact ih hx hn
  | add a b iha ihb | sub a b iha ihb | mul a b iha ihb =>
    obtain ⟨x, y, hx, hy, -⟩ := both_ok h
    rcases List.mem_append.mp hn with hn | hn
    · exact iha hx hn
    · exact ihb hy hn

theorem isGiven_of_valueOf {b : Table Decimal} (hb : bindings i precision = .ok b)
    {name : String} {v : Decimal} (h : valueOf balances b name = .ok v) : i.IsGiven name := by
  unfold valueOf at h
  split at h
  · next account hname =>
    exact .inl ⟨account, BalanceName.ofVariable?_eq_some_iff.mp hname⟩
  · cases h
  · split at h
    · next w hw =>
      obtain ⟨p, hp, text, hbinds, -⟩ := (bindAll_ok hb hw).resolve_left nofun
      exact .inr ⟨p, hp, text, hbinds⟩
    · cases h

/-- The balance after the transition is no value to start from. -/
theorem valueOf_afterwards {b : Table Decimal} {account : String}
    (haccount : BalanceName.IsAccount account) (v : Decimal) :
    valueOf balances b (BalanceName.afterwards account) ≠ .ok v := by
  have hname : BalanceName.ofVariable? (BalanceName.afterwards account) = some ⟨account, true⟩ :=
    BalanceName.ofVariable?_eq_some_iff.mpr ⟨haccount, rfl⟩
  rw [valueOf, hname]
  exact nofun

/-! ## Accounts -/

/-- No account is assigned twice. -/
theorem nodup_of_assignAll {b : Table Decimal} {changes changes' : Table Change}
    {l : List (String × Expr)} (h : assignAll balances b precision changes l = .ok changes') :
    (l.map Prod.fst).Nodup ∧ ∀ account ∈ l.map Prod.fst, changes.contains account = false := by
  induction l generalizing changes with
  | nil => exact ⟨List.nodup_nil, fun account h => absurd h List.not_mem_nil⟩
  | cons p r ih =>
    obtain ⟨account, term⟩ := p
    unfold assignAll at h
    split at h
    · cases h
    · split at h
      · cases h
      · next hnew =>
        obtain ⟨hnodup, hrest⟩ := ih h
        -- What comes later is not the account that has just been assigned.
        have hlater : ∀ a ∈ r.map Prod.fst, account ≠ a ∧ changes.contains a = false := by
          intro a ha
          have hfresh := hrest a ha
          rw [Table.contains, Table.get?_insert] at hfresh
          split at hfresh
          · cases hfresh
          · next hne => exact ⟨hne, hfresh⟩
        refine ⟨List.nodup_cons.mpr ⟨fun hmem => (hlater account hmem).1 rfl, hnodup⟩, ?_⟩
        exact List.forall_mem_cons.mpr
          ⟨Bool.eq_false_iff.mpr hnew, fun a ha => (hlater a ha).2⟩

variable {δ : Delta} {account : String} {term : Expr}

/-- In an intent with a delta, what a predicate assigns is its assignment: if it set two balances
after the transition equal, there would be no value for either. -/
theorem assignment?_of_derive (h : derive i balances precision = .ok δ) {p : Predicate}
    (hp : p ∈ i.verify) (hassigns : p.Assigns account term) :
    p.assignment? = some (account, term) := by
  obtain ⟨b, -, hchanges⟩ := derive_eq_ok_iff.mp h
  refine (Predicate.assignment?_of_assigns hassigns).resolve_right ?_
  rintro ⟨other, hother⟩
  obtain ⟨after, hafter, -⟩ :=
    (assignAll_ok hchanges).2 _ (List.mem_filterMap.mpr ⟨p, hp, hother⟩)
  exact valueOf_afterwards hassigns.1 after hafter

theorem assignsOnce_of_derive (h : derive i balances precision = .ok δ)
    (hmem : (account, term) ∈ i.assignments) : i.AssignsOnce account term := by
  obtain ⟨b, -, hchanges⟩ := derive_eq_ok_iff.mp h
  have hnodup := (nodup_of_assignAll hchanges).1
  obtain ⟨p, hp, hassigns⟩ := List.mem_filterMap.mp hmem
  obtain ⟨before, after, hverify⟩ := List.append_of_mem hp
  refine ⟨before, p, after, hverify, Predicate.assigns_of_assignment? hassigns, ?_⟩
  intro q hq other hother
  have hqmem : q ∈ i.verify := by
    rw [hverify, List.mem_append, List.mem_cons]
    exact (List.mem_append.mp hq).imp_right .inr
  rw [Intent.assignments, hverify, List.filterMap_append, List.filterMap_cons_some hassigns,
    List.map_append, List.map_cons, List.nodup_middle, List.nodup_cons, ← List.map_append,
    ← List.filterMap_append] at hnodup
  refine hnodup.1 (List.mem_map.mpr ⟨(account, other), List.mem_filterMap.mpr ⟨q, hq, ?_⟩, rfl⟩)
  exact assignment?_of_derive h hqmem hother

theorem contains_iff_of_derive (h : derive i balances precision = .ok δ) (account : String) :
    δ.changes.contains account = true ↔ ∃ p ∈ i.verify, ∃ term, p.Assigns account term := by
  constructor
  · intro hcontains
    obtain ⟨c, hc⟩ := Option.isSome_iff_exists.mp hcontains
    obtain ⟨term, hmem⟩ := assigned_of_derive h hc
    obtain ⟨p, hp, hassigns⟩ := List.mem_filterMap.mp hmem
    exact ⟨p, hp, term, Predicate.assigns_of_assignment? hassigns⟩
  · rintro ⟨p, hp, term, hassigns⟩
    have hmem : (account, term) ∈ i.assignments :=
      List.mem_filterMap.mpr ⟨p, hp, assignment?_of_derive h hp hassigns⟩
    obtain ⟨b, -, hchanges⟩ := derive_eq_ok_iff.mp h
    obtain ⟨after, -, hget⟩ := (assignAll_ok hchanges).2 _ hmem
    rw [Table.contains, hget]
    rfl

/-- A delta that is derived is what the intent assigns. -/
theorem isExact_of_derive {b : Table Decimal} (h : derive i balances precision = .ok δ)
    (hb : bindings i precision = .ok b) :
    δ.IsExact i balances precision (inputs balances b) where
  accounts := contains_iff_of_derive h
  change := by
    intro account c hc
    obtain ⟨term, hmem⟩ := assigned_of_derive h hc
    obtain ⟨b', hb', hchanges⟩ := derive_eq_ok_iff.mp h
    obtain rfl := Except.ok.inj (hb.symm.trans hb')
    obtain ⟨after, hafter, hget⟩ := (assignAll_ok hchanges).2 _ hmem
    obtain rfl := Option.some.inj (hc.symm.trans hget)
    refine ⟨rfl, term, assignsOnce_of_derive h hmem, fun n hn => ?_,
      value?_of_evaluate hafter fun n _ => agrees_inputs balances b n⟩
    obtain ⟨v, hv⟩ := valueOf_of_evaluate hafter hn
    exact isGiven_of_valueOf hb hv

/-- A derived delta is exactly what the intent assigns, in rational arithmetic on the balances of
the snapshot and on the literals that the predicates give other variables. Wherever a term can be
evaluated and has a linear form, that form has the value to which the term evaluates. -/
theorem derive_exact (i : Intent) (balances : Balances) (precision : Nat) :
    (∀ δ, derive i balances precision = .ok δ → ∃ b, bindings i precision = .ok b ∧
      i.AreGiven balances precision (inputs balances b) ∧
      δ.IsExact i balances precision (inputs balances b)) ∧
    ∀ b term d l, evaluate balances b precision term = .ok d →
      Constraint.ofExpr precision term = .ok l → l.value (inputs balances b) = d.value := by
  constructor
  · intro δ h
    obtain ⟨b, hb, -⟩ := derive_eq_ok_iff.mp h
    exact ⟨b, hb, areGiven_inputs hb, isExact_of_derive h hb⟩
  · intro b term d l hd hl
    have hlinear := Constraint.value?_of_ofExpr (ρ := inputs balances b) hl
    have hdecimal := value?_of_evaluate hd fun n _ => agrees_inputs balances b n
    exact Option.some.inj (hlinear.symm.trans hdecimal)

/-- The term for what is left after a fee is paid twice. -/
def leftAfterFees : Expr := .sub (.var "alice.balance") (.mul (.lit "2") (.var "fee"))

/-- A payment of two fees that takes one orientation for each account. -/
def feePayment : Intent := .ofPredicates "fees" [⟨.lit "5", .eq, .var "fee"⟩]
  [⟨.var "alice.balance'", .eq, leftAfterFees⟩,
    ⟨.add (.var "bob.balance") (.lit "10"), .eq, .var "bob.balance'"⟩]

/-- The balances before the fees are paid. -/
def unpaidBalances : Balances := .ofList [("alice", .ofInt64 100), ("bob", .ofInt64 20)]

theorem derive_exact_feePayment : ∃ δ b l, derive feePayment unpaidBalances 28 = .ok δ ∧
    feePayment.AreGiven unpaidBalances 28 (inputs unpaidBalances b) ∧
    δ.IsExact feePayment unpaidBalances 28 (inputs unpaidBalances b) ∧
    δ.changes.get? "alice" = some ⟨.ofInt64 100, .ofInt64 90⟩ ∧
    Constraint.ofExpr 28 leftAfterFees = .ok l ∧
    l.value (inputs unpaidBalances b) = (Decimal.ofInt64 90).value := by
  have hderive : derive feePayment unpaidBalances 28 = .ok ⟨.ofList
      [("alice", ⟨.ofInt64 100, .ofInt64 90⟩), ("bob", ⟨.ofInt64 20, .ofInt64 30⟩)]⟩ := by
    decide +kernel
  have hbound : bindings feePayment 28 = .ok (.ofList [("fee", .ofInt64 5)]) := by decide +kernel
  have hleft : evaluate unpaidBalances (.ofList [("fee", .ofInt64 5)]) 28 leftAfterFees =
      .ok (.ofInt64 90) := by
    decide +kernel
  obtain ⟨l, hl⟩ : ∃ l, Constraint.ofExpr 28 leftAfterFees = .ok l := ⟨_, rfl⟩
  obtain ⟨hexact, hlinear⟩ := derive_exact feePayment unpaidBalances 28
  obtain ⟨b, hb, hgiven, hchanges⟩ := hexact _ hderive
  obtain rfl := Except.ok.inj (hbound.symm.trans hb)
  exact ⟨_, _, l, hderive, hgiven, hchanges, by decide +kernel, hl, hlinear _ _ _ _ hleft hl⟩

end Conservation
end LedgerGate

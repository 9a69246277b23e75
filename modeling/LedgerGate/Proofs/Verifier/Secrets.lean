import LedgerGate.Proofs.Verifier.Conservation
import LedgerGate.Proofs.Verifier.Gating

/-!
# Private values and deltas

A private variable gets its value from a predicate that sets it equal to a literal, and a balance
depends on that value only if the variable occurs in a term that is assigned. The pattern verifier
reports each such occurrence. So where it reports none, intents that differ only in such literals
have the same delta (`Conservation.derive_eq_of_not_leaked`).
-/

namespace LedgerGate

/-! ## Intents that differ in private literals -/

/-- Whether two predicates are the same, or set the same one of some variables equal to literals, in
the same orientation. -/
inductive Predicate.SameBut (hidden : String → Prop) : Predicate → Predicate → Prop where
  | same (p : Predicate) : SameBut hidden p p
  | left {name : String} (h : hidden name) (text text' : String) :
      SameBut hidden ⟨.var name, .eq, .lit text⟩ ⟨.var name, .eq, .lit text'⟩
  | right {name : String} (h : hidden name) (text text' : String) :
      SameBut hidden ⟨.lit text, .eq, .var name⟩ ⟨.lit text', .eq, .var name⟩

/-- Whether two intents are the same apart from the literals that some variables are set equal to.
-/
structure Intent.SameBut (hidden : String → Prop) (i j : Intent) : Prop where
  id_eq : j.id = i.id
  guard : List.Forall₂ (Predicate.SameBut hidden) i.guard j.guard
  verify : List.Forall₂ (Predicate.SameBut hidden) i.verify j.verify
  metadata_eq : j.metadata = i.metadata
  flags_eq : j.variableFlags = i.variableFlags

variable {hidden : String → Prop} {i j : Intent} {p q : Predicate}

namespace Intent.SameBut

theorem predicates (h : i.SameBut hidden j) :
    List.Forall₂ (Predicate.SameBut hidden) i.predicates j.predicates :=
  List.rel_append h.guard h.verify

theorem isExternal_eq (h : i.SameBut hidden j) (name : String) :
    j.isExternal name = i.isExternal name := by
  rw [isExternal, isExternal, flags, flags, h.flags_eq]

end Intent.SameBut

theorem BalanceName.afterAccount?_of_not_isBalance {name : String} (h : isBalance name = false) :
    afterAccount? name = none := by
  have hnone : ofVariable? name = none := by
    rwa [isBalance, Option.isSome_eq_false_iff, Option.isNone_iff_eq_none] at h
  rw [afterAccount?, hnone]

/-- Two predicates that differ are about hidden variables. -/
theorem Predicate.SameBut.eq_or_hidden (h : SameBut hidden p q) :
    p = q ∨ (∀ name text, p.Equates name (.lit text) → hidden name) ∧
      ∀ name text, q.Equates name (.lit text) → hidden name := by
  cases h with
  | same p => exact .inl rfl
  | left hname text text' =>
    refine .inr ⟨?_, ?_⟩ <;>
    · rintro other literal ⟨-, ⟨hvar, -⟩ | ⟨hvar, -⟩⟩ <;> cases hvar
      exact hname
  | right hname text text' =>
    refine .inr ⟨?_, ?_⟩ <;>
    · rintro other literal ⟨-, ⟨-, hvar⟩ | ⟨-, hvar⟩⟩ <;> cases hvar
      exact hname

/-- A predicate that sets a variable that names no balance equal to a literal assigns nothing. -/
theorem Predicate.SameBut.assignment?_eq
    (hplain : ∀ name, hidden name → BalanceName.isBalance name = false)
    (h : SameBut hidden p q) : q.assignment? = p.assignment? := by
  cases h with
  | same p => rfl
  | left hname text text' =>
    have hnone := BalanceName.afterAccount?_of_not_isBalance (hplain _ hname)
    simp [assignment?, assignedAccount?, hnone]
  | right hname text text' =>
    have hnone := BalanceName.afterAccount?_of_not_isBalance (hplain _ hname)
    simp [assignment?, assignedAccount?, hnone]

theorem Intent.SameBut.assignments_eq
    (hplain : ∀ name, hidden name → BalanceName.isBalance name = false)
    (h : i.SameBut hidden j) : j.assignments = i.assignments := by
  have hverify := h.verify
  rw [assignments, assignments]
  generalize i.verify = ps at hverify
  generalize j.verify = qs at hverify
  induction hverify with
  | nil => rfl
  | cons hpq _ ih => rw [List.filterMap_cons, List.filterMap_cons, hpq.assignment?_eq hplain, ih]

/-! ## Reports of private values -/

namespace Pattern

/-- The report that a private variable occurs in the term that an account is assigned. -/
def leak (name account : String) : Finding :=
  ⟨.secretLeak, "secret '" ++ name ++ "' flows into '" ++ account ++ "'"⟩

/-- Each private variable of an assigned term is reported. -/
theorem leak_mem_findings {limit : Decimal} {precision : Nat} {account name : String} {term : Expr}
    (hassigned : (account, term) ∈ i.assignments) (hname : name ∈ term.occurrences)
    (hsecret : i.isSecret name = true) : leak name account ∈ findings limit precision i := by
  refine List.mem_append_right _ (List.mem_flatMap.mpr ⟨_, hassigned, ?_⟩)
  refine List.mem_flatMap.mpr ⟨name, mem_distinctNames_iff.mpr hname, ?_⟩
  refine List.mem_append_right _ ?_
  rw [if_pos hsecret]
  exact List.mem_singleton_self _

end Pattern

/-! ## Deltas -/

namespace Conservation

variable {balances : Balances} {precision : Nat} {b c b' c' : Table Decimal}

/-- Whether two tables of values agree on all variables but some. -/
def AgreeBut (hidden : String → Prop) (b c : Table Decimal) : Prop :=
  ∀ name, ¬ hidden name → c.get? name = b.get? name

theorem AgreeBut.insert (h : AgreeBut hidden b c) (name : String) (v : Decimal) :
    AgreeBut hidden (b.insert name v) (c.insert name v) := by
  intro other hother
  rw [Table.get?_insert, Table.get?_insert, h other hother]

theorem Binds.flags {name text : String} (hflags : ∀ name, j.isExternal name = i.isExternal name)
    (h : i.Binds p name text) : j.Binds p name text :=
  ⟨h.1, h.2.1, (hflags name).trans h.2.2⟩

/-- A predicate gives one variable one literal. -/
theorem Binds.unique {name name' text text' : String} (h : i.Binds p name text)
    (h' : i.Binds p name' text') : name = name' ∧ text = text' := by
  have hequation := equation?_eq_some_iff.mpr h.1
  rw [equation?_eq_some_iff.mpr h'.1, Option.some.injEq, Prod.mk.injEq] at hequation
  exact ⟨hequation.1.symm, hequation.2.symm⟩

/-- A predicate that is about a hidden variable leaves the values of the others as they are. -/
theorem agreeBut_of_bind (h : bind i precision b p = .ok b')
    (hp : ∀ name text, i.Binds p name text → hidden name) : AgreeBut hidden b b' := by
  intro other hother
  obtain ⟨-, rfl⟩ | ⟨name, text, v, hbinds, -, -, rfl⟩ := bind_ok h
  · rfl
  · have hne : name ≠ other := fun heq => hother (heq ▸ hp name text hbinds)
    rw [Table.get?_insert, if_neg hne]

/-- The same predicate gives the same value in both tables. -/
theorem AgreeBut.bind (h : AgreeBut hidden b c)
    (hflags : ∀ name, j.isExternal name = i.isExternal name)
    (hb : Conservation.bind i precision b p = .ok b')
    (hc : Conservation.bind j precision c p = .ok c') : AgreeBut hidden b' c' := by
  have hback : ∀ name, i.isExternal name = j.isExternal name := fun name => (hflags name).symm
  obtain ⟨hnone, rfl⟩ | ⟨name, text, v, hbinds, hv, -, rfl⟩ := bind_ok hb
  · obtain ⟨-, rfl⟩ | ⟨name', text', w, hbinds', -, -, rfl⟩ := bind_ok hc
    · exact h
    · exact absurd (Binds.flags hback hbinds') (hnone _ _)
  · obtain ⟨hnone', rfl⟩ | ⟨name', text', w, hbinds', hw, -, rfl⟩ := bind_ok hc
    · exact absurd (Binds.flags hflags hbinds) (hnone' _ _)
    · obtain ⟨rfl, rfl⟩ := Binds.unique hbinds (Binds.flags hback hbinds')
      obtain rfl := Except.ok.inj (hv.symm.trans hw)
      exact h.insert name v

/-- Two runs of the binding of a predicate, one of them with another literal for a hidden variable,
agree on the other variables if they did before. -/
theorem AgreeBut.bind_sameBut (h : AgreeBut hidden b c) (hpq : p.SameBut hidden q)
    (hflags : ∀ name, j.isExternal name = i.isExternal name)
    (hb : Conservation.bind i precision b p = .ok b')
    (hc : Conservation.bind j precision c q = .ok c') : AgreeBut hidden b' c' := by
  rcases hpq.eq_or_hidden with rfl | ⟨hp, hq⟩
  · exact h.bind hflags hb hc
  · have hkept := agreeBut_of_bind hb fun name text hbinds => hp name text hbinds.1
    have hkept' := agreeBut_of_bind hc fun name text hbinds => hq name text hbinds.1
    intro name hname
    rw [hkept' name hname, h name hname, hkept name hname]

/-- Two runs over the predicates of intents that differ in the literals of hidden variables end in
tables that agree on the other variables. -/
theorem AgreeBut.bindAll {ps qs : List Predicate}
    (hpq : List.Forall₂ (Predicate.SameBut hidden) ps qs) (h : AgreeBut hidden b c)
    (hflags : ∀ name, j.isExternal name = i.isExternal name)
    (hb : Conservation.bindAll i precision b ps = .ok b')
    (hc : Conservation.bindAll j precision c qs = .ok c') : AgreeBut hidden b' c' := by
  induction hpq generalizing b c with
  | nil =>
    obtain rfl := Except.ok.inj hb
    obtain rfl := Except.ok.inj hc
    exact h
  | cons hpq _ ih =>
    unfold Conservation.bindAll at hb hc
    split at hb
    · cases hb
    · next b₁ hb₁ =>
      split at hc
      · cases hc
      · next c₁ hc₁ => exact ih (h.bind_sameBut hpq hflags hb₁ hc₁) hb hc

/-- The value of a term depends on the values of its variables only. -/
theorem evaluate_congr {e : Expr} (h : ∀ name ∈ e.occurrences, c.get? name = b.get? name) :
    evaluate balances c precision e = evaluate balances b precision e := by
  induction e with
  | lit text => rfl
  | var name => rw [evaluate, evaluate, valueOf, valueOf, h name List.mem_cons_self]
  | neg a ih => rw [evaluate, evaluate, ih h]
  | add a b iha ihb =>
    obtain ⟨ha, hb⟩ := List.forall_mem_append.mp h
    rw [evaluate, evaluate, iha ha, ihb hb]
  | sub a b iha ihb =>
    obtain ⟨ha, hb⟩ := List.forall_mem_append.mp h
    rw [evaluate, evaluate, iha ha, ihb hb]
  | mul a b iha ihb =>
    obtain ⟨ha, hb⟩ := List.forall_mem_append.mp h
    rw [evaluate, evaluate, iha ha, ihb hb]

theorem assignAll_congr {changes : Table Change} {l : List (String × Expr)}
    (h : ∀ a ∈ l, ∀ name ∈ a.2.occurrences, c.get? name = b.get? name) :
    assignAll balances c precision changes l = assignAll balances b precision changes l := by
  induction l generalizing changes with
  | nil => rfl
  | cons a r ih =>
    obtain ⟨hterm, hrest⟩ := List.forall_mem_cons.mp h
    rw [assignAll, assignAll, evaluate_congr hterm]
    simp only [ih hrest]

/-- The literals that private variables are set equal to do not change the delta, unless the
pattern verifier reports that one of these variables occurs in an assigned term. -/
theorem derive_eq_of_not_leaked {settings : Pattern.Settings} {x : Context}
    {fs : List Pattern.Finding} {δ δ' : Delta} (hsame : x.intent.SameBut hidden j)
    (hhidden : ∀ name, hidden name →
      BalanceName.isBalance name = false ∧ x.intent.isSecret name = true)
    (hscan : Pattern.scan settings x = .ok fs)
    (hclean : ∀ name, hidden name → ∀ account, Pattern.leak name account ∉ fs)
    (hδ : derive x.intent balances precision = .ok δ)
    (hδ' : derive j balances precision = .ok δ') : δ' = δ := by
  obtain ⟨b, hb, hchanges⟩ := derive_eq_ok_iff.mp hδ
  obtain ⟨c, hc, hchanges'⟩ := derive_eq_ok_iff.mp hδ'
  have hagree : AgreeBut hidden b c :=
    AgreeBut.bindAll hsame.predicates (fun _ _ => rfl) hsame.isExternal_eq hb hc
  rw [hsame.assignments_eq fun name hname => (hhidden name hname).1] at hchanges'
  -- A hidden variable of an assigned term would be reported.
  have hvalues : ∀ a ∈ x.intent.assignments, ∀ name ∈ a.2.occurrences,
      c.get? name = b.get? name := by
    intro a ha name hname
    refine hagree name fun hh => hclean name hh a.1 ?_
    rw [Pattern.scan_eq_ok hscan]
    exact Pattern.leak_mem_findings ha hname (hhidden name hh).2
  rw [assignAll_congr hvalues, hchanges] at hchanges'
  cases δ
  cases δ'
  exact congrArg Delta.mk (Except.ok.inj hchanges').symm

/-- A payment of five that asks for a private number. -/
def pinPayment (pin : String) : Intent :=
  ⟨"pay", [⟨.var "pin", .eq, .lit pin⟩],
    [⟨.var "alice.balance'", .eq, .sub (.var "alice.balance") (.lit "5")⟩,
      ⟨.lit pin, .eq, .var "pin"⟩,
      ⟨.add (.var "bob.balance") (.lit "5"), .eq, .var "bob.balance'"⟩],
    Metadata.none, .ofList [("pin", ⟨false, true⟩)]⟩

/-- The balances before the payment. -/
def pinBalances : Balances := .ofList [("alice", .ofInt64 100), ("bob", .ofInt64 20)]

theorem derive_eq_of_not_leaked_pinPayment : ∃ δ δ',
    (pinPayment "1234").SameBut (· = "pin") (pinPayment "98.50") ∧
    Pattern.scan ⟨.ofInt64 1000000000000, 1, 1⟩
      ⟨pinPayment "1234", pinBalances, 28, .never, .never⟩ = .ok [] ∧
    derive (pinPayment "1234") pinBalances 28 = .ok δ ∧
    derive (pinPayment "98.50") pinBalances 28 = .ok δ' ∧ δ' = δ := by
  have hsame : (pinPayment "1234").SameBut (· = "pin") (pinPayment "98.50") :=
    ⟨rfl, .cons (.left (by rfl) _ _) .nil,
      .cons (.same _) (.cons (.right (by rfl) _ _) (.cons (.same _) .nil)), rfl, rfl⟩
  have hhidden : ∀ name, name = "pin" →
      BalanceName.isBalance name = false ∧ (pinPayment "1234").isSecret name = true := by
    rintro name rfl
    decide +kernel
  have hscan : Pattern.scan ⟨.ofInt64 1000000000000, 1, 1⟩
      ⟨pinPayment "1234", pinBalances, 28, .never, .never⟩ = .ok [] := by
    decide +kernel
  have hderive : ∀ pin ∈ ["1234", "98.50"], derive (pinPayment pin) pinBalances 28 = .ok ⟨.ofList
      [("alice", ⟨.ofInt64 100, .ofInt64 95⟩), ("bob", ⟨.ofInt64 20, .ofInt64 25⟩)]⟩ := by
    decide +kernel
  have hδ := hderive "1234" (by decide)
  have hδ' := hderive "98.50" (by decide)
  exact ⟨_, _, hsame, hscan, hδ, hδ',
    derive_eq_of_not_leaked hsame hhidden hscan (fun _ _ _ => List.not_mem_nil) hδ hδ'⟩

end Conservation
end LedgerGate

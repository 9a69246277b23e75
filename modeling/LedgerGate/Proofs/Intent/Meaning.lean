import LedgerGate.Decimal.Text
import LedgerGate.Intent.Predicate
import LedgerGate.Proofs.Decimal.Value
import LedgerGate.Proofs.Table

/-!
# What predicates say

Given a value for each variable, a term has a value as soon as its literals are exact decimals
(`Expr.value?`), and a predicate is true or not (`Predicate.Holds`). Nothing is rounded: the
values are rational numbers.
-/

namespace LedgerGate

/-- Values for all variables. -/
abbrev Values := String → ℚ

/-- The value of a term whose literals have at most so many digits. -/
def Expr.value? (precision : Nat) (ρ : Values) : Expr → Option ℚ
  | .lit text => (Decimal.parse text precision).toOption.map Decimal.value
  | .var name => some (ρ name)
  | .neg a => (a.value? precision ρ).map (- ·)
  | .add a b => Option.map₂ (· + ·) (a.value? precision ρ) (b.value? precision ρ)
  | .sub a b => Option.map₂ (· - ·) (a.value? precision ρ) (b.value? precision ρ)
  | .mul a b => Option.map₂ (· * ·) (a.value? precision ρ) (b.value? precision ρ)

/-- Whether two numbers compare in a given way. -/
def Comparison.Holds (x y : ℚ) : Comparison → Prop
  | .eq => x = y
  | .ne => x ≠ y
  | .lt => x < y
  | .le => x ≤ y
  | .gt => x > y
  | .ge => x ≥ y

/-- Whether a predicate is true. -/
def Predicate.Holds (precision : Nat) (ρ : Values) (p : Predicate) : Prop :=
  ∃ x y, p.lhs.value? precision ρ = some x ∧ p.rhs.value? precision ρ = some y ∧ p.op.Holds x y

variable {precision : Nat} {ρ σ : Values}

instance Comparison.decidableHolds (x y : ℚ) : (op : Comparison) → Decidable (op.Holds x y)
  | .eq => inferInstanceAs (Decidable (x = y))
  | .ne => inferInstanceAs (Decidable (x ≠ y))
  | .lt => inferInstanceAs (Decidable (x < y))
  | .le => inferInstanceAs (Decidable (x ≤ y))
  | .gt => inferInstanceAs (Decidable (x > y))
  | .ge => inferInstanceAs (Decidable (x ≥ y))

instance Predicate.decidableHolds (p : Predicate) : Decidable (p.Holds precision ρ) :=
  match hx : p.lhs.value? precision ρ, hy : p.rhs.value? precision ρ with
  | some x, some y => decidable_of_iff (p.op.Holds x y)
    ⟨fun h => ⟨x, y, hx, hy, h⟩, fun ⟨x', y', hx', hy', h⟩ => by
      rw [Option.some.inj (hx.symm.trans hx'), Option.some.inj (hy.symm.trans hy')]
      exact h⟩
  | none, _ => isFalse fun ⟨_, _, hx', _⟩ => absurd (hx.symm.trans hx') nofun
  | _, none => isFalse fun ⟨_, _, _, hy', _⟩ => absurd (hy.symm.trans hy') nofun

/-- The value of a term depends only on the variables that occur. -/
theorem Expr.value?_congr {e : Expr} (h : ∀ n ∈ e.occurrences, ρ n = σ n) :
    e.value? precision ρ = e.value? precision σ := by
  induction e with
  | lit text => rfl
  | var name => exact congrArg some (h name List.mem_cons_self)
  | neg a ih => rw [value?, value?, ih h]
  | add a b iha ihb | sub a b iha ihb | mul a b iha ihb =>
    obtain ⟨ha, hb⟩ := List.forall_mem_append.mp h
    rw [value?, value?, iha ha, ihb hb]

theorem Predicate.holds_congr {p : Predicate} (h : ∀ n ∈ p.occurrences, ρ n = σ n) :
    p.Holds precision ρ ↔ p.Holds precision σ := by
  obtain ⟨hl, hr⟩ := List.forall_mem_append.mp h
  rw [Holds, Holds, Expr.value?_congr hl, Expr.value?_congr hr]

/-! ## Names -/

theorem mem_distinctNames_iff {names : List String} {n : String} :
    n ∈ distinctNames names ↔ n ∈ names := by
  rw [distinctNames, Table.mem_keys_ofList_iff, List.map_map]
  exact iff_of_eq (congrArg (n ∈ ·) (List.map_id names))

namespace BalanceName

/-- Whether a text can be the account of a variable. -/
def IsAccount (account : String) : Prop :=
  account ≠ "" ∧ ∀ c ∈ account.toList, isAccountChar c = true

/-- What follows an account in the variable of its balance. -/
def suffix (after : Bool) : List Char := if after then afterSuffix else beforeSuffix

/-- The point that ends the account is no character of an account. -/
theorem takeWhile_suffix (after : Bool) : (suffix after).takeWhile isAccountChar = [] ∧
    (suffix after).dropWhile isAccountChar = suffix after := by
  cases after <;> decide

theorem ofChars?_append {account : String} (h : IsAccount account) (after : Bool) :
    ofChars? (account.toList ++ suffix after) = some ⟨account, after⟩ := by
  obtain ⟨hne, hchars⟩ := h
  obtain ⟨htake, hdrop⟩ := takeWhile_suffix after
  have hempty : ¬ account.toList.isEmpty = true := by
    rw [List.isEmpty_iff]
    exact fun hnil => hne (String.toList_inj.mp hnil)
  have hdistinct : afterSuffix ≠ beforeSuffix := by decide
  unfold ofChars?
  rw [List.takeWhile_append_of_pos hchars, List.dropWhile_append_of_pos hchars, htake, hdrop,
    List.append_nil]
  dsimp only
  rw [if_neg hempty, String.ofList_toList]
  cases after with
  | false => rw [suffix, if_neg Bool.false_ne_true, if_pos rfl]
  | true => rw [suffix, if_pos rfl, if_neg hdistinct, if_pos rfl]

theorem ofChars?_eq_some_iff {cs : List Char} {account : String} {after : Bool} :
    ofChars? cs = some ⟨account, after⟩ ↔
      IsAccount account ∧ cs = account.toList ++ suffix after := by
  constructor
  · intro h
    have hcs := List.takeWhile_append_dropWhile (p := isAccountChar) (l := cs)
    unfold ofChars? at h
    dsimp only at h
    split at h
    · cases h
    · next hsome =>
      have hparts : account = String.ofList (cs.takeWhile isAccountChar) ∧
          cs.dropWhile isAccountChar = suffix after := by
        split at h
        · next hrest =>
          cases h
          exact ⟨rfl, hrest⟩
        · split at h
          · next hrest =>
            cases h
            exact ⟨rfl, hrest⟩
          · cases h
      obtain ⟨rfl, hrest⟩ := hparts
      rw [hrest] at hcs
      rw [IsAccount, String.toList_ofList]
      refine ⟨⟨fun hempty => hsome ?_, fun c hc => List.mem_takeWhile_imp hc⟩, hcs.symm⟩
      rw [← String.toList_inj, String.toList_ofList] at hempty
      rw [hempty]
      rfl
  · rintro ⟨haccount, rfl⟩
    exact ofChars?_append haccount after

theorem toList_variable (account : String) (after : Bool) :
    (if after then afterwards account else before account).toList =
      account.toList ++ suffix after := by
  cases after with
  | false => exact String.toList_append
  | true => exact String.toList_append

/-- A variable names a balance if it is an account with what follows it. -/
theorem ofVariable?_eq_some_iff {name account : String} {after : Bool} :
    ofVariable? name = some ⟨account, after⟩ ↔
      IsAccount account ∧ name = if after then afterwards account else before account := by
  rw [ofVariable?, ofChars?_eq_some_iff, ← toList_variable, String.toList_inj]

theorem beforeAccount?_eq_some_iff {name account : String} :
    beforeAccount? name = some account ↔ ofVariable? name = some ⟨account, false⟩ := by
  unfold beforeAccount?
  split
  · next acc h => rw [h]; simp
  · next h => simpa using h account

theorem afterAccount?_eq_some_iff {name account : String} :
    afterAccount? name = some account ↔ ofVariable? name = some ⟨account, true⟩ := by
  unfold afterAccount?
  split
  · next acc h => rw [h]; simp
  · next h => simpa using h account

/-- The variable of a balance is named by the account with what follows it. -/
theorem afterAccount?_eq_some {name account : String} (h : afterAccount? name = some account) :
    name = afterwards account :=
  (ofVariable?_eq_some_iff.mp (afterAccount?_eq_some_iff.mp h)).2

/-- A variable does not name a balance before and one after the transition. -/
theorem beforeAccount?_of_afterAccount? {name account : String}
    (h : afterAccount? name = some account) : beforeAccount? name = none := by
  rw [beforeAccount?, afterAccount?_eq_some_iff.mp h]

theorem isBalance_of_beforeAccount? {name account : String}
    (h : beforeAccount? name = some account) : isBalance name = true := by
  rw [isBalance, beforeAccount?_eq_some_iff.mp h]
  rfl

end BalanceName

/-! ## Assignments -/

namespace Predicate

theorem assignedAccount?_eq_some {e : Expr} {account : String}
    (h : assignedAccount? e = some account) : e = .var (BalanceName.afterwards account) := by
  cases e with
  | var name => rw [BalanceName.afterAccount?_eq_some h]
  | _ => exact absurd h nofun

/-- A predicate that assigns a balance sets its variable and the term equal. -/
theorem assignment?_eq_some {p : Predicate} {account : String} {term : Expr}
    (h : p.assignment? = some (account, term)) :
    BalanceName.afterAccount? (BalanceName.afterwards account) = some account ∧ p.op = .eq ∧
      (p.lhs = .var (BalanceName.afterwards account) ∧ p.rhs = term ∨
        p.lhs = term ∧ p.rhs = .var (BalanceName.afterwards account)) := by
  unfold assignment? at h
  split at h
  · next hop =>
    split at h
    · next a ha =>
      obtain ⟨rfl, rfl⟩ := Prod.mk.inj (Option.some.inj h)
      have hvar := assignedAccount?_eq_some ha
      exact ⟨by rwa [hvar] at ha, hop, .inl ⟨hvar, rfl⟩⟩
    · obtain ⟨a, ha, he⟩ := Option.map_eq_some_iff.mp h
      obtain ⟨rfl, rfl⟩ := Prod.mk.inj he
      have hvar := assignedAccount?_eq_some ha
      exact ⟨by rwa [hvar] at ha, hop, .inr ⟨rfl, hvar⟩⟩
  · exact absurd h nofun

/-- A predicate that assigns a balance is true exactly where the balance is what it says. -/
theorem holds_assignment_iff {p : Predicate} {account : String} {term : Expr}
    (h : p.assignment? = some (account, term)) : p.Holds precision ρ ↔
      term.value? precision ρ = some (ρ (BalanceName.afterwards account)) := by
  obtain ⟨-, hop, ⟨hl, hr⟩ | ⟨hl, hr⟩⟩ := assignment?_eq_some h <;> rw [Holds, hop, hl, hr] <;>
    simp [Expr.value?, Comparison.Holds]

theorem mem_occurrences_of_assignment? {p : Predicate} {account : String} {term : Expr}
    (h : p.assignment? = some (account, term)) {n : String} (hn : n ∈ term.occurrences) :
    n ∈ p.occurrences := by
  obtain ⟨-, -, ⟨-, rfl⟩ | ⟨rfl, -⟩⟩ := assignment?_eq_some h
  · exact List.mem_append_right _ hn
  · exact List.mem_append_left _ hn

end Predicate

end LedgerGate

import LedgerGate.Proofs.Fraction
import LedgerGate.Proofs.Intent.Meaning
import LedgerGate.Solver.Linear

/-!
# The value of a linear form

Given a value for each variable, a linear form has a value (`Linear.value`). Every operation
that gives a form gives one with the value that the operation stands for. Forms that have the same
values are the same (`Linear.eq_of_value_eq`).
-/

namespace LedgerGate.Linear

/-- The sum of terms. -/
def sumTerms (ρ : Values) (ts : List (String × Fraction)) : ℚ :=
  (ts.map fun p => p.2.value * ρ p.1).sum

/-- The value of a form. -/
def value (ρ : Values) (l : Linear) : ℚ := sumTerms ρ l.coeffs.entries + l.constant.value

variable {ρ σ : Values} {name : String}

@[simp]
theorem sumTerms_nil : sumTerms ρ [] = 0 := rfl

@[simp]
theorem sumTerms_cons (p : String × Fraction) (ts : List (String × Fraction)) :
    sumTerms ρ (p :: ts) = p.2.value * ρ p.1 + sumTerms ρ ts := rfl

@[simp]
theorem sumTerms_zero (ts : List (String × Fraction)) : sumTerms 0 ts = 0 := by
  induction ts with
  | nil => rfl
  | cons p r ih => rw [sumTerms_cons, ih, Pi.zero_apply, mul_zero, add_zero]

theorem sumTerms_congr {ts : List (String × Fraction)} (h : ∀ p ∈ ts, ρ p.1 = σ p.1) :
    sumTerms ρ ts = sumTerms σ ts :=
  congrArg List.sum (List.map_congr_left fun p hp => by rw [h p hp])

/-- Where all variables are zero a form has the value of its constant. -/
theorem value_at_zero (l : Linear) : l.value 0 = l.constant.value := by
  rw [value, sumTerms_zero, zero_add]

/-! ## Coefficients -/

@[simp]
theorem coeff_ofFraction (q : Fraction) : (ofFraction q).coeff name = 0 := rfl

theorem coeff_eq_lookup (l : Linear) : l.coeff name = (Table.lookup name l.coeffs.entries).getD 0 :=
  rfl

/-! ## Terms replaced and left out -/

/-- Leaving a name out of sorted terms takes its term away. -/
theorem sumTerms_filter (name : String) {ts : List (String × Fraction)}
    (h : ts.Pairwise fun p q => p.1 < q.1) :
    sumTerms ρ (ts.filter fun p => p.1 ≠ name) =
      sumTerms ρ ts - ((Table.lookup name ts).getD 0).value * ρ name := by
  induction ts with
  | nil => simp [Table.lookup]
  | cons p r ih =>
    obtain ⟨hp, hr⟩ := List.pairwise_cons.mp h
    obtain ⟨n, q⟩ := p
    by_cases hn : n = name
    · subst hn
      have hrest : (r.filter fun p => p.1 ≠ n) = r :=
        List.filter_eq_self.mpr fun p hmem => by
          have := hp p hmem
          simpa using fun e : p.1 = n => String.lt_irrefl n (e ▸ this)
      rw [List.filter_cons_of_neg (by simp), hrest]
      simp [Table.lookup]
    · rw [List.filter_cons_of_pos (by simpa using hn), sumTerms_cons, sumTerms_cons, ih hr,
        Table.lookup, if_neg hn]
      ring

theorem sumTerms_insertEntry (name : String) (v : Fraction) {ts : List (String × Fraction)}
    (h : ts.Pairwise fun p q => p.1 < q.1) :
    sumTerms ρ (Table.insertEntry name v ts) =
      sumTerms ρ ts - ((Table.lookup name ts).getD 0).value * ρ name + v.value * ρ name := by
  have hfound : ((Table.lookup name ts).map fun q => q.value * ρ name).getD 0 =
      ((Table.lookup name ts).getD 0).value * ρ name := by
    cases Table.lookup name ts <;> simp
  rw [← hfound]
  exact Table.sum_insertEntry (fun n q => q.value * ρ n) name v h

/-- The value of a form in terms of one of its variables. -/
theorem value_erase (l : Linear) (name : String) (ρ : Values) :
    (l.erase name).value ρ = l.value ρ - (l.coeff name).value * ρ name := by
  have h := sumTerms_filter (ρ := ρ) name l.coeffs.sorted
  show sumTerms ρ (l.coeffs.entries.filter _) + l.constant.value = _
  rw [h, value, coeff_eq_lookup]
  ring

theorem notMem_variableNames_erase (l : Linear) (name : String) :
    name ∉ (l.erase name).variableNames := by
  intro h
  have hc := Table.mem_keys_iff.mp h
  simp [erase, Table.contains] at hc

theorem value_congr {l : Linear} (h : ∀ n ∈ l.variableNames, ρ n = σ n) :
    l.value ρ = l.value σ := by
  rw [value, value, sumTerms_congr fun p hp => h p.1 (List.mem_map_of_mem hp)]

/-- A form does not depend on a variable that it does not mention. -/
theorem value_with_of_notMem {l : Linear} (h : name ∉ l.variableNames) (x : ℚ) :
    l.value (Function.update ρ name x) = l.value ρ :=
  value_congr fun _ hn => Function.update_of_ne (ne_of_mem_of_not_mem hn h) _ _

/-- A form as a function of one variable. -/
theorem value_with (l : Linear) (name : String) (ρ : Values) (x : ℚ) :
    l.value (Function.update ρ name x) = (l.erase name).value ρ + (l.coeff name).value * x := by
  have h := value_erase l name (Function.update ρ name x)
  rw [value_with_of_notMem (notMem_variableNames_erase l name), Function.update_self] at h
  rw [h]
  ring

/-! ## Operations -/

@[simp]
theorem value_ofFraction (q : Fraction) : (ofFraction q).value ρ = q.value := zero_add _

@[simp]
theorem value_ofVariable (name : String) : (ofVariable name).value ρ = ρ name := by
  simp [value, ofVariable, Table.insert, Table.insertEntry, Table.empty]

theorem value_of_isConstant {l : Linear} (h : l.isConstant = true) :
    l.value ρ = l.constant.value := by
  rw [value, List.isEmpty_iff.mp h, sumTerms_nil, zero_add]

theorem value_addTerm? {l l' : Linear} {q : Fraction} (h : l.addTerm? name q = some l') :
    l'.value ρ = l.value ρ + q.value * ρ name := by
  unfold addTerm? at h
  split at h
  · exact absurd h nofun
  · next s hs =>
    have hsum := Fraction.value_add? hs
    split at h
    · next hz =>
      obtain rfl := Option.some.inj h
      have hs0 := Fraction.value_eq_zero_iff.mpr hz
      rw [value_erase, show (l.coeff name).value = -q.value by linarith]
      ring
    · obtain rfl := Option.some.inj h
      have hput := sumTerms_insertEntry (ρ := ρ) name s l.coeffs.sorted
      show sumTerms ρ (Table.insertEntry name s l.coeffs.entries) + l.constant.value = _
      rw [hput, ← coeff_eq_lookup, hsum, value]
      ring

theorem value_addTerms? {l l' : Linear} {ts : List (String × Fraction)}
    (h : l.addTerms? ts = some l') : l'.value ρ = l.value ρ + sumTerms ρ ts := by
  induction ts generalizing l with
  | nil =>
    obtain rfl := Option.some.inj h
    simp
  | cons p r ih =>
    obtain ⟨n, q⟩ := p
    simp only [addTerms?] at h
    split at h
    · next l₁ h₁ => rw [ih h, value_addTerm? h₁, sumTerms_cons, add_assoc]
    · exact absurd h nofun

theorem constant_addTerm? {l l' : Linear} {q : Fraction} (h : l.addTerm? name q = some l') :
    l'.constant = l.constant := by
  unfold addTerm? at h
  split at h
  · exact absurd h nofun
  · split at h <;> rw [← Option.some.inj h] <;> rfl

theorem constant_addTerms? {l l' : Linear} {ts : List (String × Fraction)}
    (h : l.addTerms? ts = some l') : l'.constant = l.constant := by
  induction ts generalizing l with
  | nil => rw [Option.some.inj h]
  | cons p r ih =>
    simp only [addTerms?] at h
    split at h
    · next l₁ h₁ => rw [ih h, constant_addTerm? h₁]
    · exact absurd h nofun

theorem value_add? {a b c : Linear} (h : a.add? b = some c) :
    c.value ρ = a.value ρ + b.value ρ := by
  unfold add? at h
  split at h
  · next l k hl hk =>
    obtain rfl := Option.some.inj h
    have hterms := value_addTerms? (ρ := ρ) hl
    rw [value, value] at hterms
    rw [value, value, value, Fraction.value_add? hk]
    -- The constant of the terms put together is that of the first form.
    have hconst : l.constant = a.constant := constant_addTerms? hl
    rw [hconst] at hterms
    linarith
  · exact absurd h nofun

theorem sumTerms_scaleTerms? {k : Fraction} {ts us : List (String × Fraction)}
    (h : scaleTerms? k ts = some us) : sumTerms ρ us = sumTerms ρ ts * k.value := by
  induction ts generalizing us with
  | nil =>
    obtain rfl := Option.some.inj h
    simp
  | cons p r ih =>
    simp only [scaleTerms?] at h
    split at h
    · next s t hs ht =>
      obtain rfl := Option.some.inj h
      rw [sumTerms_cons, sumTerms_cons, ih ht, Fraction.value_mul? hs]
      ring
    · cases h

theorem scale?_eq_some {l l' : Linear} {k : Fraction} (h : l.scale? k = some l') :
    k.num = 0 ∧ l' = ofFraction 0 ∨ k.num ≠ 0 ∧
      scaleTerms? k l.coeffs.entries = some l'.coeffs.entries ∧
        l.constant.mul? k = some l'.constant := by
  unfold scale? at h
  split at h
  · next hk => exact .inl ⟨hk, (Option.some.inj h).symm⟩
  · next hk =>
    refine .inr ⟨hk, ?_⟩
    split at h
    · next t c ht hc =>
      obtain rfl := Option.some.inj h
      exact ⟨ht, hc⟩
    · exact absurd h nofun

theorem value_scale? {l l' : Linear} {k : Fraction} (h : l.scale? k = some l') :
    l'.value ρ = l.value ρ * k.value := by
  obtain ⟨hk, rfl⟩ | ⟨-, ht, hc⟩ := scale?_eq_some h
  · rw [Fraction.value_eq_zero_iff.mpr hk, mul_zero, value_ofFraction, Fraction.value_zero]
  · rw [value, value, sumTerms_scaleTerms? ht, Fraction.value_mul? hc, add_mul]

theorem value_sub? {a b c : Linear} (h : a.sub? b = some c) :
    c.value ρ = a.value ρ - b.value ρ := by
  unfold sub? at h
  split at h
  · next n hn =>
    rw [value_add? h, value_scale? hn, Fraction.value_minusOne]
    ring
  · exact absurd h nofun

/-- Replacing a variable by a form has the value in which the variable has that of the form. -/
theorem value_substitute? {l l' r : Linear} (h : l.substitute? name r = some l') :
    l'.value ρ = l.value (Function.update ρ name (r.value ρ)) := by
  unfold substitute? at h
  rw [value_with]
  split at h
  · next hz =>
    obtain rfl := Option.some.inj h
    rw [value_erase, Fraction.isZero_iff.mp hz]
    ring
  · split at h
    · next s hs =>
      rw [value_add? h, value_scale? hs]
      ring
    · exact absurd h nofun

/-- The size of the first coefficient of a form, which is one for a form without variables. -/
def leadSize (l : Linear) : ℚ :=
  match l.coeffs.entries with
  | [] => 1
  | (_, q) :: _ => |q.value|

theorem leadSize_pos (l : Linear) : 0 < l.leadSize := by
  unfold leadSize
  split
  · exact one_pos
  · next name q rest hentries =>
    have hmem : (name, q) ∈ l.coeffs.entries := hentries ▸ List.mem_cons_self
    exact abs_pos.mpr fun hzero => l.nonzero _ hmem (Fraction.value_eq_zero_iff.mp hzero)

theorem value_normalize?_eq_div {l l' : Linear} (h : l.normalize? = some l') :
    l'.value ρ = l.value ρ / l.leadSize := by
  unfold normalize? at h
  split at h
  · next hnil =>
    obtain rfl := Option.some.inj h
    rw [leadSize, hnil, div_one]
  · next name lead rest hentries =>
    have hlead : l.leadSize = |lead.value| := by rw [leadSize, hentries]
    split at h
    · exact absurd h nofun
    · next size hsize =>
      split at h
      · next k hk =>
        rw [value_scale? h, Fraction.value_recip? hk, Fraction.value_abs? hsize, hlead,
          div_eq_mul_inv]
      · exact absurd h nofun

/-- The normal form of a row is a positive multiple of it. -/
theorem value_normalize? {l l' : Linear} (h : l.normalize? = some l') :
    ∃ k : ℚ, 0 < k ∧ ∀ ρ, l'.value ρ = l.value ρ * k :=
  ⟨l.leadSize⁻¹, inv_pos.mpr l.leadSize_pos, fun _ => value_normalize?_eq_div h⟩

/-! ## Which variables occur -/

theorem isConstant_iff {l : Linear} : l.isConstant = true ↔ l.variableNames = [] := by
  rw [isConstant, Table.isEmpty, List.isEmpty_iff, variableNames, Table.keys, List.map_eq_nil_iff]

theorem isConstant_congr {l l' : Linear} (h : l.variableNames = l'.variableNames) :
    l.isConstant = l'.isConstant := by
  rw [Bool.eq_iff_iff, isConstant_iff, isConstant_iff, h]

theorem mem_variableNames_iff {l : Linear} :
    name ∈ l.variableNames ↔ (l.coeffs.get? name).isSome := by
  rw [variableNames, Table.mem_keys_iff, Table.contains]

theorem mem_variableNames_erase {l : Linear} {n : String} :
    n ∈ (l.erase name).variableNames ↔ n ≠ name ∧ n ∈ l.variableNames := by
  rw [mem_variableNames_iff, mem_variableNames_iff, erase, Table.get?_erase]
  split
  · next h => simp [h]
  · next h => simp [Ne.symm h]

theorem variableNames_addTerm? {l l' : Linear} {q : Fraction} (h : l.addTerm? name q = some l')
    {n : String} (hn : n ∈ l'.variableNames) : n = name ∨ n ∈ l.variableNames := by
  unfold addTerm? at h
  split at h
  · exact absurd h nofun
  · split at h
    · obtain rfl := Option.some.inj h
      exact .inr (mem_variableNames_erase.mp hn).2
    · obtain rfl := Option.some.inj h
      rw [mem_variableNames_iff, put, Table.get?_insert] at hn
      split at hn
      · next he => exact .inl he.symm
      · exact .inr (mem_variableNames_iff.mpr hn)

theorem variableNames_addTerms? {l l' : Linear} {ts : List (String × Fraction)}
    (h : l.addTerms? ts = some l') {n : String} (hn : n ∈ l'.variableNames) :
    n ∈ l.variableNames ∨ n ∈ ts.map Prod.fst := by
  induction ts generalizing l with
  | nil =>
    obtain rfl := Option.some.inj h
    exact .inl hn
  | cons p r ih =>
    simp only [addTerms?] at h
    split at h
    · next l₁ h₁ =>
      rw [List.map_cons, List.mem_cons]
      rcases ih h with hl | hr
      · rcases variableNames_addTerm? h₁ hl with he | hl
        · exact .inr (.inl he)
        · exact .inl hl
      · exact .inr (.inr hr)
    · exact absurd h nofun

theorem variableNames_add? {a b c : Linear} (h : a.add? b = some c) {n : String}
    (hn : n ∈ c.variableNames) : n ∈ a.variableNames ∨ n ∈ b.variableNames := by
  unfold add? at h
  split at h
  · next l k hl hk =>
    obtain rfl := Option.some.inj h
    exact variableNames_addTerms? hl hn
  · exact absurd h nofun

theorem variableNames_scale? {l l' : Linear} {k : Fraction} (h : l.scale? k = some l') {n : String}
    (hn : n ∈ l'.variableNames) : n ∈ l.variableNames := by
  obtain ⟨-, rfl⟩ | ⟨-, ht, -⟩ := scale?_eq_some h
  · exact absurd hn List.not_mem_nil
  · rw [variableNames, Table.keys, names_scaleTerms? ht] at hn
    exact hn

/-- The normal form of a row mentions the same variables. -/
theorem variableNames_normalize? {l l' : Linear} (h : l.normalize? = some l') :
    l'.variableNames = l.variableNames := by
  unfold normalize? at h
  split at h
  · rw [Option.some.inj h]
  · split at h
    · exact absurd h nofun
    · split at h
      · next k hk =>
        obtain ⟨hk0, -⟩ | ⟨-, ht, -⟩ := scale?_eq_some h
        · have hzero : k.value ≠ 0 := by
            rw [Fraction.value_recip? hk]
            exact inv_ne_zero (Fraction.value_ne_zero_of_recip? hk)
          exact absurd (Fraction.value_eq_zero_iff.mpr hk0) hzero
        · exact names_scaleTerms? ht
      · exact absurd h nofun

/-! ## Forms as functions -/

/-- A coefficient is what the value changes by when its variable changes from zero to one. -/
theorem value_coeff (l : Linear) (name : String) (ρ : Values) : (l.coeff name).value =
    l.value (Function.update ρ name 1) - l.value (Function.update ρ name 0) := by
  rw [value_with, value_with]
  ring

theorem get?_eq_none_iff {l : Linear} : l.coeffs.get? name = none ↔ (l.coeff name).value = 0 := by
  unfold coeff
  cases h : l.coeffs.get? name with
  | none => exact iff_of_true rfl Fraction.value_zero
  | some q =>
    have hne := l.nonzero (name, q) (Table.get?_eq_some_iff.mp h)
    exact iff_of_false nofun fun hz => hne (Fraction.value_eq_zero_iff.mp hz)

/-- Two forms with the same values are the same. -/
theorem eq_of_value_eq {a b : Linear} (h : ∀ ρ, a.value ρ = b.value ρ) : a = b := by
  have hcoeff : ∀ n, (a.coeff n).value = (b.coeff n).value := fun n => by
    rw [value_coeff a n 0, value_coeff b n 0, h, h]
  have hcoeffs : a.coeffs = b.coeffs := Table.ext_get? fun n => by
    have hn := hcoeff n
    cases ha : a.coeffs.get? n with
    | none =>
      rw [get?_eq_none_iff, hn, ← get?_eq_none_iff] at ha
      exact ha.symm
    | some q =>
      cases hb : b.coeffs.get? n with
      | none =>
        rw [get?_eq_none_iff, ← hn, ← get?_eq_none_iff, ha] at hb
        cases hb
      | some r =>
        rw [coeff, coeff, ha, hb] at hn
        exact congrArg some (Fraction.eq_of_value_eq hn)
  have hconst := h 0
  rw [value_at_zero, value_at_zero] at hconst
  exact ext hcoeffs (Fraction.eq_of_value_eq hconst)

theorem isConstant_iff_value {l : Linear} : l.isConstant = true ↔ ∀ ρ σ, l.value ρ = l.value σ := by
  refine ⟨fun h ρ σ => ?_, fun h => ?_⟩
  · rw [value_of_isConstant h, value_of_isConstant h]
  · have hsame : l = ofFraction l.constant := eq_of_value_eq fun ρ => by
      rw [h ρ 0, value_at_zero, value_ofFraction]
    rw [hsame]
    rfl

end LedgerGate.Linear

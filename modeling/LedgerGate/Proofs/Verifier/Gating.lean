import LedgerGate.Gate
import LedgerGate.Proofs.Table

/-!
# What the gate sees of the shapes that the pattern verifier finds

The gate looks for shapes on its own and cheaply. Whatever the scan finds, it sees too, with one
exception: a factor that amplifies. So an intent in which something else is found is always
shown to the pattern verifier, and one in which there are only such factors is shown to it if
and only if a variable is flagged or the intent is complex (`Gate.pattern_mem_select_iff`).
-/

namespace LedgerGate

namespace Pattern

variable {limit : Decimal} {n : Nat} {i : Intent} {p : Predicate} {f : Finding}

/-- Whether what was found is a factor that amplifies. -/
def Finding.IsAmplification (f : Finding) : Prop :=
  ∃ t, f = ⟨.magnitudeJump, "multiplication by " ++ t⟩

/-- Whether something is known of a variable that makes an intent suspicious by itself. -/
def IsFlagged (i : Intent) : Prop := ∃ f ∈ i.variableFlags.values, f.external ∨ f.secret

/-! ## Findings in a predicate -/

/-- A literal of extreme size is not reported as a factor. -/
theorem not_isAmplification_literal (t : String) :
    ¬ Finding.IsAmplification
      ⟨.magnitudeJump, "literal " ++ t ++ " at or above " ++ limit.text⟩ := by
  rintro ⟨t', h⟩
  have hdetail := congrArg (fun f => f.detail.toList.head?) h
  simp at hdetail

theorem mem_scanSide {e : Expr} (h : f ∈ scanSide n e) :
    (hasVariableProduct e = true ∧ f.shape = .unboundedArithmetic) ∨
      (amplifiers n e ≠ [] ∧ f.IsAmplification) := by
  rcases List.mem_append.mp h with h | h
  · by_cases hp : hasVariableProduct e = true
    · rw [if_pos hp, List.mem_singleton] at h
      exact .inl ⟨hp, by rw [h]⟩
    · rw [if_neg hp] at h
      cases h
  · obtain ⟨t, ht, rfl⟩ := List.mem_map.mp h
    exact .inr ⟨List.ne_nil_of_mem ht, t, rfl⟩

/-- What is found in a predicate makes it suspicious, or is an amplifying factor of a side. -/
theorem mem_scanPredicate (h : f ∈ scanPredicate limit n p) :
    isSuspicious limit n p = true ∨
      (f.IsAmplification ∧ (amplifiers n p.lhs ≠ [] ∨ amplifiers n p.rhs ≠ [])) := by
  simp only [isSuspicious, Bool.or_eq_true]
  simp only [scanPredicate, List.mem_append] at h
  rcases h with ((h | h) | h) | h
  · rcases mem_scanSide h with ⟨hp, -⟩ | ⟨ha, hf⟩
    · exact .inl (.inl (.inl (.inl hp)))
    · exact .inr ⟨hf, .inl ha⟩
  · rcases mem_scanSide h with ⟨hp, -⟩ | ⟨ha, hf⟩
    · exact .inl (.inl (.inl (.inr hp)))
    · exact .inr ⟨hf, .inr ha⟩
  · obtain ⟨t, ht, -⟩ := List.mem_map.mp h
    exact .inl (.inl (.inr (List.any_eq_true.mpr ⟨t, List.mem_filter.mp ht⟩)))
  · obtain ⟨name, hname, -⟩ := List.mem_map.mp h
    have hne : sharedPrimed p ≠ [] := List.ne_nil_of_mem hname
    exact .inl (.inr (by simpa using hne))

/-- What makes a predicate suspicious is found in it, and is not an amplifying factor. -/
theorem exists_finding_of_isSuspicious (h : isSuspicious limit n p = true) :
    ∃ f ∈ scanPredicate limit n p, ¬ f.IsAmplification := by
  have hproduct : ¬ Finding.IsAmplification
      ⟨.unboundedArithmetic, "product of two variable terms"⟩ := by
    rintro ⟨t, ht⟩
    cases ht
  have hside : ∀ e, hasVariableProduct e = true →
      ⟨.unboundedArithmetic, "product of two variable terms"⟩ ∈ scanSide n e := by
    intro e he
    simp [scanSide, he]
  simp only [isSuspicious, Bool.or_eq_true] at h
  simp only [scanPredicate, List.mem_append]
  rcases h with ((h | h) | h) | h
  · exact ⟨_, .inl (.inl (.inl (hside p.lhs h))), hproduct⟩
  · exact ⟨_, .inl (.inl (.inr (hside p.rhs h))), hproduct⟩
  · obtain ⟨t, ht⟩ := List.any_eq_true.mp h
    refine ⟨_, .inl (.inr (List.mem_map.mpr ⟨t, List.mem_filter.mpr ht, rfl⟩)), ?_⟩
    exact not_isAmplification_literal t
  · obtain ⟨name, hname⟩ := List.exists_mem_of_ne_nil (sharedPrimed p) (by simpa using h)
    refine ⟨_, .inr (List.mem_map.mpr ⟨name, hname, rfl⟩), ?_⟩
    rintro ⟨t, ht⟩
    cases ht

/-- A term with an amplifying factor is more than a literal or a variable. -/
theorem isCompound_of_amplifiers {e : Expr} (h : amplifiers n e ≠ []) : e.isCompound = true := by
  cases e with
  | lit text => exact absurd rfl h
  | var name => exact absurd rfl h
  | add a b => rfl
  | sub a b => rfl
  | mul a b => rfl
  | neg a => rfl

/-! ## Findings in an intent -/

/-- A variable in an assigned term is reported only if it is flagged. -/
theorem isFlagged_of_mem_scanAssignment {a : String × Expr} (h : f ∈ scanAssignment i a) :
    IsFlagged i := by
  obtain ⟨name, -, hf⟩ := List.mem_flatMap.mp h
  have hflags : (i.flags name).external = true ∨ (i.flags name).secret = true := by
    by_contra hnot
    obtain ⟨hexternal, hsecret⟩ := not_or.mp hnot
    simp [scanVariable, Intent.isExternal, Intent.isSecret, hexternal, hsecret] at hf
  unfold Intent.flags at hflags
  cases hget : i.variableFlags.get? name with
  | none =>
    rw [hget] at hflags
    exact absurd hflags (by decide)
  | some flags =>
    rw [hget] at hflags
    refine ⟨flags, ?_, hflags⟩
    exact List.mem_map.mpr ⟨(name, flags), Table.get?_eq_some_iff.mp hget, rfl⟩

theorem looksAnomalous_iff : looksAnomalous limit n i = true ↔
    IsFlagged i ∨ ∃ p ∈ i.predicates, isSuspicious limit n p = true := by
  simp [looksAnomalous, IsFlagged]

/-- What is found in an intent makes it look anomalous, or is an amplifying factor. -/
theorem looksAnomalous_of_mem (h : f ∈ findings limit n i) (hf : ¬ f.IsAmplification) :
    looksAnomalous limit n i = true := by
  rw [looksAnomalous_iff]
  rcases List.mem_append.mp h with h | h
  · obtain ⟨p, hp, hmem⟩ := List.mem_flatMap.mp h
    rcases mem_scanPredicate hmem with hs | ⟨ha, -⟩
    · exact .inr ⟨p, hp, hs⟩
    · exact absurd ha hf
  · obtain ⟨a, -, hmem⟩ := List.mem_flatMap.mp h
    exact .inl (isFlagged_of_mem_scanAssignment hmem)

/-- An intent looks anomalous if and only if a variable is flagged, or something other than an
amplifying factor is found. -/
theorem looksAnomalous_iff_findings : looksAnomalous limit n i = true ↔
    IsFlagged i ∨ ∃ f ∈ findings limit n i, ¬ f.IsAmplification := by
  constructor
  · intro h
    rcases looksAnomalous_iff.mp h with hflagged | ⟨p, hp, hs⟩
    · exact .inl hflagged
    · obtain ⟨f, hmem, hf⟩ := exists_finding_of_isSuspicious hs
      exact .inr ⟨f, List.mem_append_left _ (List.mem_flatMap.mpr ⟨p, hp, hmem⟩), hf⟩
  · rintro (hflagged | ⟨f, hmem, hf⟩)
    · exact looksAnomalous_iff.mpr (.inl hflagged)
    · exact looksAnomalous_of_mem hmem hf

/-- An amplifying factor stands in a predicate with a compound side. -/
theorem exists_compound_of_mem (h : f ∈ findings limit n i)
    (hanomalous : ¬ looksAnomalous limit n i = true) :
    ∃ p ∈ i.predicates, p.lhs.isCompound = true ∨ p.rhs.isCompound = true := by
  rw [looksAnomalous_iff] at hanomalous
  rcases List.mem_append.mp h with h | h
  · obtain ⟨p, hp, hmem⟩ := List.mem_flatMap.mp h
    rcases mem_scanPredicate hmem with hs | ⟨-, ha⟩
    · exact absurd (.inr ⟨p, hp, hs⟩) hanomalous
    · exact ⟨p, hp, ha.imp isCompound_of_amplifiers isCompound_of_amplifiers⟩
  · obtain ⟨a, -, hmem⟩ := List.mem_flatMap.mp h
    exact absurd (.inl (isFlagged_of_mem_scanAssignment hmem)) hanomalous

theorem scan_eq_ok {s : Settings} {c : Context} {fs : List Finding} (h : scan s c = .ok fs) :
    fs = findings s.magnitudeLimit c.precision c.intent := by
  unfold scan at h
  split at h
  · cases h
  · cases h
    rfl

end Pattern

/-! ## The selection -/

/-- The limit of a valid configuration is a number. -/
theorem Config.exists_limit {c : Config} (hc : c.validate = .ok ()) :
    ∃ limit, Decimal.parse c.pattern.magnitudeLimit Decimal.maxPrecision = .ok limit := by
  unfold validate at hc
  cases hlimit : Decimal.parse c.pattern.magnitudeLimit Decimal.maxPrecision with
  | ok limit => exact ⟨limit, rfl⟩
  | error f =>
    -- it is the last of the checks, so the others have to be passed first
    exfalso
    rw [hlimit] at hc
    cases hunits : checkUnits c.units with
    | error f' =>
      rw [hunits] at hc
      cases hc
    | ok u =>
      rw [hunits] at hc
      change (if _ then _ else _) = _ at hc
      split at hc
      · cases hc
      · cases htimeouts : c.checkTimeouts VerifierId.all with
        | error f' =>
          rw [htimeouts] at hc
          cases hc
        | ok u =>
          rw [htimeouts] at hc
          change (if _ then _ else _) = _ at hc
          split at hc
          · cases hc
          · split at hc <;> cases hc

namespace Gate

variable {g : Gate} {i : Intent}

theorem mem_select_of_calls {id : VerifierId} {f : Features} (h : g.calls f id = true) :
    id ∈ g.select f := by
  have hall : id ∈ VerifierId.all := by cases id <;> decide
  have hcalled : id ∈ VerifierId.all.filter (g.calls f) := List.mem_filter.mpr ⟨hall, h⟩
  have hne : (VerifierId.all.filter (g.calls f)).isEmpty = false := by
    rw [List.isEmpty_eq_false_iff]
    exact List.ne_nil_of_mem hcalled
  simp only [select, hne, Bool.false_eq_true, if_false]
  exact hcalled

/-- Where one verifier is called, the others are selected only if they are called too. -/
theorem calls_of_mem_select {id id' : VerifierId} {f : Features} (h : id ∈ g.select f)
    (h' : g.calls f id' = true) : g.calls f id = true := by
  have hall : id' ∈ VerifierId.all := by cases id' <;> decide
  have hne : (VerifierId.all.filter (g.calls f)).isEmpty = false := by
    rw [List.isEmpty_eq_false_iff]
    exact List.ne_nil_of_mem (List.mem_filter.mpr ⟨hall, h'⟩)
  simp only [select, hne, Bool.false_eq_true, if_false] at h
  exact (List.mem_filter.mp h).2

/-- Logic is called for an intent with a compound side. -/
theorem calls_logic_of_compound {p : Predicate} (hp : p ∈ i.predicates)
    (h : p.lhs.isCompound = true ∨ p.rhs.isCompound = true) :
    g.calls (g.features i) .logic = true := by
  have hpos : 0 < i.guard.length + (i.verify.filter Features.isRelational).length := by
    rcases List.mem_append.mp hp with hp | hp
    · have hguard := List.length_pos_of_mem hp
      omega
    · have hrelational : Features.isRelational p = true := by
        rcases h with h | h <;> simp [Features.isRelational, h]
      have hverify := List.length_pos_of_mem (List.mem_filter.mpr ⟨hp, hrelational⟩)
      omega
  exact decide_eq_true hpos

/-- Where something is found, the pattern verifier is selected if and only if it is called: the
fallback to all verifiers does not come in. -/
theorem calls_pattern_of_mem_select {f : Pattern.Finding}
    (hf : f ∈ Pattern.findings g.magnitudeLimit g.precision i)
    (h : VerifierId.pattern ∈ g.select (g.features i)) :
    g.calls (g.features i) .pattern = true := by
  by_cases hanomalous : Pattern.looksAnomalous g.magnitudeLimit g.precision i = true
  · simp [calls, features, hanomalous]
  · obtain ⟨p, hp, hcompound⟩ := Pattern.exists_compound_of_mem hf hanomalous
    exact calls_of_mem_select h (calls_logic_of_compound hp hcompound)

theorem calls_pattern_iff : g.calls (g.features i) .pattern = true ↔
    (∃ f ∈ Pattern.findings g.magnitudeLimit g.precision i, ¬ f.IsAmplification) ∨
      Pattern.IsFlagged i ∨ g.complexityThreshold < (g.features i).complexity := by
  have hanomalous : (g.features i).anomalous =
      Pattern.looksAnomalous g.magnitudeLimit g.precision i := rfl
  simp only [calls, hanomalous, Bool.or_eq_true, Pattern.looksAnomalous_iff_findings,
    decide_eq_true_eq]
  rw [or_assoc, or_left_comm]

/-- A valid configuration has a gate and a pattern verifier, with the same limit. -/
theorem exists_ofConfig {c : Config} (hc : c.validate = .ok ()) :
    ∃ g s, ofConfig c = .ok g ∧ Pattern.Settings.ofConfig c.pattern = .ok s ∧
      g.magnitudeLimit = s.magnitudeLimit ∧ g.precision = c.decimalPrecision ∧
      g.complexityThreshold = c.pattern.complexityThreshold := by
  obtain ⟨limit, hlimit⟩ := Config.exists_limit hc
  unfold ofConfig Pattern.Settings.ofConfig
  rw [hlimit]
  exact ⟨_, _, rfl, rfl, rfl, rfl, rfl⟩

/-- With a valid configuration, whenever the scan finds anything in an intent, the gate selects
the pattern verifier if and only if something other than an amplifying factor is found, a
variable is flagged, or the intent is complex. -/
theorem pattern_mem_select_iff {c : Config} (hc : c.validate = .ok ()) :
    ∃ g s, Gate.ofConfig c = .ok g ∧ Pattern.Settings.ofConfig c.pattern = .ok s ∧
      ∀ (x : Context) (fs : List Pattern.Finding), x.precision = c.decimalPrecision →
        Pattern.scan s x = .ok fs → fs ≠ [] →
        (VerifierId.pattern ∈ g.select (g.features x.intent) ↔
          (∃ f ∈ fs, ¬ f.IsAmplification) ∨ Pattern.IsFlagged x.intent ∨
            c.pattern.complexityThreshold < (g.features x.intent).complexity) := by
  obtain ⟨g, s, hgate, hsettings, hlimit, hdigits, hthreshold⟩ := exists_ofConfig hc
  refine ⟨g, s, hgate, hsettings, ?_⟩
  intro x fs hprecision hscan hne
  have hfs : fs = Pattern.findings g.magnitudeLimit g.precision x.intent := by
    rw [hlimit, hdigits, ← hprecision]
    exact Pattern.scan_eq_ok hscan
  obtain ⟨f, hf⟩ := List.exists_mem_of_ne_nil fs hne
  rw [hfs] at hf ⊢
  rw [← hthreshold]
  constructor
  · intro h
    exact calls_pattern_iff.mp (calls_pattern_of_mem_select hf h)
  · intro h
    exact mem_select_of_calls (calls_pattern_iff.mpr h)

/-- A balance made a hundred times as large. -/
def raise : Intent :=
  .ofPredicates "raise" []
    [⟨.var "alice.balance'", .eq, .mul (.var "alice.balance") (.lit "100")⟩]

/-- What the pattern verifier sees of `raise`. -/
def raiseContext : Context := ⟨raise, .empty, 28, .never, .never⟩

theorem pattern_notMem_select_raise :
    Config.usual.validate = .ok () ∧ ∃ g s fs, Gate.ofConfig .usual = .ok g ∧
      Pattern.Settings.ofConfig Config.usual.pattern = .ok s ∧
      Pattern.scan s raiseContext = .ok fs ∧ fs ≠ [] ∧
      VerifierId.pattern ∉ g.select (g.features raise) := by
  have hvalid : Config.usual.validate = .ok () := by decide
  obtain ⟨g, s, hg, hs, h⟩ := pattern_mem_select_iff hvalid
  obtain rfl : (⟨48, .ofInt64 1000000000000, 28⟩ : Gate) = g :=
    Except.ok.inj (Eq.trans (by rfl) hg)
  obtain rfl : (⟨.ofInt64 1000000000000, 0.9, 0.5⟩ : Pattern.Settings) = s :=
    Except.ok.inj (Eq.trans (by rfl) hs)
  have hscan : Pattern.scan ⟨.ofInt64 1000000000000, 0.9, 0.5⟩ raiseContext =
      .ok [⟨.magnitudeJump, "multiplication by 100"⟩] := by decide
  refine ⟨hvalid, _, _, _, hg, hs, hscan, List.cons_ne_nil _ _, ?_⟩
  intro hmem
  rcases (h raiseContext _ rfl hscan (List.cons_ne_nil _ _)).mp hmem with
    ⟨f, hf, hnot⟩ | ⟨f, hf, -⟩ | hcomplex
  · exact hnot ⟨"100", List.mem_singleton.mp hf⟩
  · cases hf
  · exact absurd hcomplex (by decide)

end Gate
end LedgerGate

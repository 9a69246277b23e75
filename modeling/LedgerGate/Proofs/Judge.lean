import LedgerGate.Proofs.Ledger.Commit
import LedgerGate.Proofs.Verifier.Conservation
import LedgerGate.Proofs.Verifier.Interruption
import LedgerGate.Service

/-!
# What an approval means

An approved intent was approved by every verifier that its features call for, whatever happened to
their tasks (`Judge.approve_of_poll`), and its delta is the exact one. If logic was not called
for, each predicate across the transition assigns a balance. In both cases a predicate is true of
the balances before and after the delta as soon as the delta decides all the balances that it
mentions (`Judge.holds_of_approved`).
-/

namespace LedgerGate

/-! ## Verdicts -/

namespace Verdict

theorem verifier_ifInTime {id : VerifierId} {deadline : Deadline} {v : Verdict}
    (h : v.verifier = id) : (ifInTime id deadline v).verifier = id := by
  unfold ifInTime
  split
  · rfl
  · exact h

theorem verifier_bounded {id : VerifierId} {c : Context} {work : Except Fault Verdict}
    (h : ∀ v, work = .ok v → v.verifier = id) : (bounded id c work).verifier = id := by
  cases work with
  | error f => exact verifier_ifInTime rfl
  | ok v => exact verifier_ifInTime (h v rfl)

end Verdict

theorem Logic.verifier_work {n : Nat} {c : Context} {v : Verdict} (h : work n c = .ok v) :
    v.verifier = .logic := by
  unfold work at h
  split at h
  · exact absurd h nofun
  · rw [← Except.ok.inj h]; rfl
  · rw [← Except.ok.inj h]; rfl
  · next cs _ =>
    rw [← Except.ok.inj h]
    generalize Solver.check _ cs = a
    cases a <;> rfl

theorem Conservation.verifier_work {c : Context} {v : Verdict} (h : work c = .ok v) :
    v.verifier = .conservation := by
  have hfailure : ∀ e, (ofFailure e).verifier = .conservation := by
    intro e; cases e <;> rfl
  unfold work at h
  split at h
  · exact absurd h nofun
  · split at h
    · rw [← Except.ok.inj h]
      exact hfailure _
    · split at h
      · exact absurd h nofun
      · rw [← Except.ok.inj h]
        unfold ofDelta
        split
        · rfl
        · split
          · rfl
          · exact hfailure _

theorem Pattern.verifier_work {s : Settings} {c : Context} {v : Verdict} (h : work s c = .ok v) :
    v.verifier = .pattern := by
  unfold work at h
  split at h
  · exact absurd h nofun
  · rw [← Except.ok.inj h]
    unfold ofFindings
    split
    · rfl
    · dsimp only
      split <;> rfl

theorem Judge.verifier_verdict (pattern : Pattern.Settings) (c : Context) (id : VerifierId) :
    (verdict pattern c id).verifier = id := by
  cases id with
  | logic => exact Verdict.verifier_bounded fun _ => Logic.verifier_work
  | conservation => exact Verdict.verifier_bounded fun _ => Conservation.verifier_work
  | pattern => exact Verdict.verifier_bounded fun _ => Pattern.verifier_work

/-! ## What is gathered -/

namespace Gathering

variable {g : Gathering} {ids : List VerifierId} {id : VerifierId} {v : Verdict}

theorem verdicts_foldl_join (t : Consensus.Thresholds) (task : VerifierId → Option Verdict)
    (g : Gathering) (ids : List VerifierId) :
    (ids.foldl (fun g id => g.join t (task id)) g).verdicts = g.verdicts ++ ids.filterMap task := by
  induction ids generalizing g with
  | nil => simp
  | cons id rest ih =>
    rw [List.foldl_cons, ih]
    cases htask : task id with
    | none => simp [join, htask]
    | some v => simp [join, htask]

theorem misses_iff : g.misses id = true ↔ ∀ v ∈ g.verdicts, v.verifier ≠ id := by
  simp [misses]

theorem missing_fill (id id' : VerifierId) : (g.fill id).missing id' = g.missing id' := by
  unfold fill
  split <;> rfl

/-- A verdict in place of a missing one makes no difference to which others are missing. -/
theorem misses_fill {id' : VerifierId} (h : id' ≠ id) : (g.fill id).misses id' = g.misses id' := by
  unfold fill
  split
  · simp [misses, missing, Verdict.uncertain, Verdict.make, Ne.symm h]
  · rfl

theorem verdicts_fill (g : Gathering) (id : VerifierId) :
    (g.fill id).verdicts = g.verdicts ++ if g.misses id then [g.missing id] else [] := by
  unfold fill
  by_cases hmisses : g.misses id = true
  · simp [hmisses]
  · simp [hmisses]

theorem verdicts_foldl_fill (g : Gathering) (h : ids.Nodup) :
    (ids.foldl fill g).verdicts = g.verdicts ++ (ids.filter g.misses).map g.missing := by
  induction ids generalizing g with
  | nil => simp
  | cons id rest ih =>
    obtain ⟨hid, hrest⟩ := List.nodup_cons.mp h
    have hsame : rest.filter (g.fill id).misses = rest.filter g.misses := by
      apply List.filter_congr
      intro id' hid'
      exact misses_fill fun he => hid (he ▸ hid')
    have hmissing : (g.fill id).missing = g.missing := funext fun _ => missing_fill id _
    rw [List.foldl_cons, ih (g.fill id) hrest, hsame, hmissing, verdicts_fill]
    by_cases hmisses : g.misses id = true
    · simp [hmisses]
    · simp [hmisses]

end Gathering

/-! ## Consensus -/

namespace Consensus

variable {t : Thresholds} {activated : List VerifierId} {verdicts : List Verdict}

/-- Nothing blocks a verifier that has approved. -/
theorem blocker?_eq_none {id : VerifierId} (h : blocker? t verdicts id = none) :
    ∃ v ∈ verdicts, v.verifier = id ∧ v.decision = .approve := by
  unfold blocker? at h
  split at h
  · exact absurd h nofun
  · next v hv =>
    split at h
    · next happroves =>
      rw [approves, Bool.and_eq_true, beq_iff_eq] at happroves
      exact ⟨v, List.mem_of_find?_eq_some hv, by simpa using List.find?_some hv, happroves.1⟩
    · exact absurd h nofun

/-- What is approved was approved by every verifier that was called. -/
theorem exists_of_approved (h : (aggregate t activated verdicts).approved = true) {id : VerifierId}
    (hid : id ∈ activated) : ∃ v ∈ verdicts, v.verifier = id ∧ v.decision = .approve := by
  have hdecide : (decide t activated verdicts).1 = true := h
  unfold decide at hdecide
  split at hdecide
  · exact absurd hdecide Bool.false_ne_true
  · split at hdecide
    · exact absurd hdecide Bool.false_ne_true
    · dsimp only at hdecide
      split at hdecide
      · next hnone =>
        exact blocker?_eq_none (List.filterMap_eq_nil_iff.mp (List.isEmpty_iff.mp hnone) id hid)
      · exact absurd hdecide Bool.false_ne_true

end Consensus

namespace Judge

variable {j : Judge} {course : Course} {i : Intent} {b : Balances}

/-- The verdicts that the tasks of called verifiers end with, in the order in which they end. -/
def heard (j : Judge) (course : Course) (i : Intent) (b : Balances) : List Verdict :=
  (course.arrivals (j.activated i)).filterMap fun id => j.taskVerdict? i b id (course.fate id)

theorem nodup_activated (j : Judge) (i : Intent) : (j.activated i).Nodup := by
  have hall : VerifierId.all.Nodup := by decide
  unfold activated Gate.select
  dsimp only
  split
  · exact hall
  · exact hall.filter _

theorem verdicts_joined :
    (j.joined course i b (course.arrivals (j.activated i))).verdicts = j.heard course i b :=
  (Gathering.verdicts_foldl_join _ _ _ _).trans (List.nil_append _)

/-- What is heard is gathered, and then a verdict in place of each that is missing. -/
theorem gather_eq (j : Judge) (course : Course) (i : Intent) (b : Balances) :
    ∃ g : Gathering, g.verdicts = j.heard course i b ∧
      j.gather course i b = g.verdicts ++ ((j.activated i).filter g.misses).map g.missing :=
  ⟨_, verdicts_joined, Gathering.verdicts_foldl_fill _ (j.nodup_activated i)⟩

theorem verifier_taskVerdict? {id : VerifierId} {fate : Fate} {v : Verdict}
    (h : j.taskVerdict? i b id fate = some v) : v.verifier = id := by
  cases fate with
  | answered cancelled deadline =>
    obtain rfl := Option.some.inj h
    exact verifier_verdict _ _ id
  | closed | failed why | overdue limit =>
    obtain rfl := Option.some.inj h
    rfl
  | lost => cases h

/-- A task that ends with a decision one way or the other ends with that of its verifier. -/
theorem eq_verdict_of_taskVerdict? {id : VerifierId} {fate : Fate} {v : Verdict}
    (h : j.taskVerdict? i b id fate = some v) (hdecided : v.decision ≠ .uncertain) :
    v = verdict j.pattern (j.context i b) id := by
  cases fate with
  | answered cancelled deadline =>
    obtain rfl := Option.some.inj h
    exact verdict_calm hdecided
  | closed | failed why | overdue limit =>
    obtain rfl := Option.some.inj h
    exact absurd rfl hdecided
  | lost => cases h

/-- What is gathered is heard, unless it is undecided. -/
theorem mem_heard_of_gather {v : Verdict} (h : v ∈ j.gather course i b)
    (hdecided : v.decision ≠ .uncertain) : v ∈ j.heard course i b := by
  obtain ⟨g, hg, hgather⟩ := j.gather_eq course i b
  rw [hgather, List.mem_append] at h
  rcases h with hheard | hmissing
  · rwa [hg] at hheard
  · obtain ⟨id, -, rfl⟩ := List.mem_map.mp hmissing
    exact absurd rfl hdecided

/-- Where an intent is approved, the task for a verifier that was called ends with an approval,
which is what the verifier says when nothing tells it to stop. -/
theorem task_of_approved (h : (j.poll course i b).approved = true) {id : VerifierId}
    (hid : id ∈ j.activated i) :
    j.taskVerdict? i b id (course.fate id) = some (verdict j.pattern (j.context i b) id) ∧
      (verdict j.pattern (j.context i b) id).decision = .approve := by
  obtain ⟨v, hv, hverifier, happrove⟩ := Consensus.exists_of_approved h hid
  have hdecided : v.decision ≠ .uncertain := by
    rw [happrove]
    nofun
  obtain ⟨id', -, htask⟩ := List.mem_filterMap.mp (mem_heard_of_gather hv hdecided)
  obtain rfl : id' = id := (verifier_taskVerdict? htask).symm.trans hverifier
  rw [← eq_verdict_of_taskVerdict? htask hdecided]
  exact ⟨htask, happrove⟩

/-- A verifier that was called approves what is approved, whatever happened to the tasks. -/
theorem approve_of_poll (h : (j.poll course i b).approved = true) {id : VerifierId}
    (hid : id ∈ j.activated i) :
    (verdict j.pattern (j.context i b) id).decision = .approve :=
  (task_of_approved h hid).2

/-- An approved decision is that of the verifiers, and carries the exact delta, which conserves. -/
theorem decide_approved (h : (j.decide course i b).1.approved = true) :
    (j.poll course i b).approved = true ∧ ∃ δ, (j.decide course i b).1.delta = some δ ∧
      Conservation.derive i b j.precision = .ok δ ∧ δ.conserves = .ok () := by
  unfold decide at h ⊢
  split at h
  · exact absurd h Bool.false_ne_true
  · have hvalid : (j.decideValid course i b).approved = true := h
    show _ ∧ ∃ δ, (j.decideValid course i b).delta = some δ ∧ _
    unfold decideValid at hvalid ⊢
    dsimp only at hvalid ⊢
    split at hvalid
    · next hpoll =>
      refine ⟨hpoll, ?_⟩
      rw [if_pos hpoll]
      cases hd : j.deltaFor i b with
      | error e => rw [hd] at hvalid; exact absurd hvalid Bool.false_ne_true
      | ok δ =>
        refine ⟨δ, rfl, ?_⟩
        unfold deltaFor at hd
        split at hd
        · exact absurd hd nofun
        · next δ' hδ' =>
          split at hd
          · next hconserves =>
            obtain rfl := Except.ok.inj hd
            exact ⟨hδ', hconserves⟩
          · exact absurd hd nofun
    · next hpoll => exact absurd hvalid hpoll

theorem intentHash_decide : (j.decide course i b).1.intentHash = i.contentHash := by
  unfold decide
  split <;> rfl

/-- What is approved may be committed, with changes that start from the balances it was decided
on. -/
theorem committable?_decide (h : (j.decide course i b).1.approved = true) :
    ∃ δ, (j.decide course i b).1.delta = some δ ∧ (j.decide course i b).1.committable? = some δ ∧
      ∀ p ∈ δ.changes.entries, p.2.before = b.of p.1 := by
  obtain ⟨-, δ, hδ, hderive, hconserves⟩ := decide_approved h
  have hhash : i.contentHash ≠ "" := fun he => by
    have hlength := Sha256.length_textDigest i.preimage
    rw [← Intent.contentHash, he] at hlength
    exact absurd hlength (by decide)
  refine ⟨δ, hδ, ?_, Conservation.before_of_derive hderive⟩
  rw [Consensus.committable?, h, intentHash_decide, hδ]
  simp [hhash, hconserves]

/-- An intent for which logic is not called has no guard, and nothing in it is relational. -/
theorem plain_of_logic_notMem (h : VerifierId.logic ∉ j.activated i) :
    i.guard = [] ∧ i.verify.filter Features.isRelational = [] := by
  have hcalls : j.gate.calls (j.gate.features i) .logic = false := by
    unfold activated Gate.select at h
    dsimp only at h
    split at h
    · exact absurd (by decide) h
    · by_contra hc
      exact h (List.mem_filter.mpr ⟨by decide, by simpa using hc⟩)
  have hsum : ¬ 0 < i.guard.length + (i.verify.filter Features.isRelational).length :=
    of_decide_eq_false hcalls
  constructor
  · apply List.length_eq_zero_iff.mp
    omega
  · apply List.length_eq_zero_iff.mp
    omega

/-- Logic is called for every intent that has a guard. -/
theorem logic_mem_of_guard {p : Predicate} (hp : p ∈ i.guard) :
    VerifierId.logic ∈ j.activated i := by
  by_contra h
  rw [(plain_of_logic_notMem h).1] at hp
  exact List.not_mem_nil hp

/-- An intent for which logic is not called consists of assignments. -/
theorem assignment_of_logic_notMem (h : VerifierId.logic ∉ j.activated i) :
    ∀ p ∈ i.verify, ∃ account term, p.assignment? = some (account, term) := by
  intro p hp
  have hplain := List.filter_eq_nil_iff.mp (plain_of_logic_notMem h).2 p hp
  simp only [Features.isRelational, Bool.or_eq_true, not_or] at hplain
  obtain ⟨⟨account, term⟩, ha⟩ := Option.ne_none_iff_exists'.mp (by simpa using hplain.2)
  exact ⟨account, term, ha⟩

end Judge

/-! ## Predicates across a transition -/

/-- The balances before and after a transition, as values of the variables that name them. -/
def Balances.around (before after : Balances) : Values := fun name =>
  match BalanceName.ofVariable? name with
  | some ⟨account, false⟩ => (before.of account).value
  | some ⟨account, true⟩ => (after.of account).value
  | none => 0

theorem Balances.around_afterwards {before after : Balances} {name account : String}
    (h : BalanceName.afterAccount? name = some account) :
    around before after name = (after.of account).value := by
  unfold BalanceName.afterAccount? at h
  split at h
  · next hv =>
    obtain rfl := Option.some.inj h
    simp only [around, hv]
  · exact absurd h nofun

/-- Whether the accounts that a delta changes have the values that it gives them. -/
def Delta.IsWrittenIn (δ : Delta) (after : Balances) : Prop :=
  ∀ account c, δ.changes.get? account = some c → (after.of account).value = c.after.value

/-- Whether all variables of a predicate are balances that do not come from outside. -/
def Predicate.IsAboutBalances (i : Intent) (p : Predicate) : Prop :=
  ∀ name ∈ p.occurrences, BalanceName.isBalance name = true ∧ i.isExternal name = false

/-- Whether an intent assigns an account a term in which no balance comes from outside. -/
def Intent.Assigns (i : Intent) (account : String) : Prop :=
  ∃ term, (account, term) ∈ i.assignments ∧
    ∀ name ∈ term.occurrences, BalanceName.isBalance name = true → i.isExternal name = false

/-- Whether an intent assigns every balance after the transition that a predicate mentions. -/
def Predicate.IsSettledBy (i : Intent) (p : Predicate) : Prop :=
  ∀ name ∈ p.occurrences, ∀ account, BalanceName.afterAccount? name = some account →
    i.Assigns account

namespace Judge

variable {j : Judge} {course : Course} {i : Intent} {b after : Balances} {δ : Delta} {p : Predicate}

/-- In a model of an intent, an account that is assigned a term without balances from outside has
the balance that the delta gives it. -/
theorem value_of_isModel {ρ : Values} {account : String} {term : Expr}
    (hmodel : Logic.IsModel (j.context i b) ρ)
    (hderive : Conservation.derive i b j.precision = .ok δ)
    (hmem : (account, term) ∈ i.assignments)
    (hinside : ∀ name ∈ term.occurrences, ∀ acc, BalanceName.beforeAccount? name = some acc →
      i.isExternal name = false) :
    ∃ c, δ.changes.get? account = some c ∧
      ρ (BalanceName.afterwards account) = c.after.value := by
  obtain ⟨bindings, hbindings, hassign⟩ := Conservation.derive_ok hderive
  obtain ⟨value, hvalue, hchange⟩ := hassign _ hmem
  obtain ⟨q, hq, hqa⟩ := List.mem_filterMap.mp hmem
  have hq : q ∈ i.predicates := List.mem_append_right _ hq
  refine ⟨_, hchange, ?_⟩
  have hterm : term.value? j.precision ρ = some value.value := by
    refine Conservation.value?_of_evaluate hvalue fun n hn => ⟨fun acc hacc => ?_, fun _ v hv => ?_⟩
    · have hbefore := BalanceName.beforeAccount?_eq_some_iff.mpr hacc
      exact hmodel.pinned q hq n (Predicate.mem_occurrences_of_assignment? hqa hn) acc hbefore
        (hinside n hn acc hbefore)
    · obtain ⟨-, e, he, text, heq, hparse⟩ := hbindings n v hv
      exact Conservation.value_of_equation? heq hparse (hmodel.holds e he)
  have hq' := (Predicate.holds_assignment_iff hqa).mp (hmodel.holds q hq)
  exact Option.some.inj (hq'.symm.trans hterm)

/-- Where logic approves, a predicate is true of the balances around the delta. -/
theorem holds_of_isModel {ρ : Values} (hmodel : Logic.IsModel (j.context i b) ρ)
    (hderive : Conservation.derive i b j.precision = .ok δ)
    (hafter : δ.IsWrittenIn after) (hp : p ∈ i.predicates)
    (hbalances : p.IsAboutBalances i) (hsettled : p.IsSettledBy i) :
    p.Holds j.precision (b.around after) := by
  refine (Predicate.holds_congr fun name hname => ?_).mp (hmodel.holds p hp)
  obtain ⟨hbalance, hexternal⟩ := hbalances name hname
  obtain ⟨⟨account, side⟩, hv⟩ := Option.isSome_iff_exists.mp hbalance
  cases side with
  | false =>
    have hbefore : BalanceName.beforeAccount? name = some account := by
      rw [BalanceName.beforeAccount?, hv]
    rw [hmodel.pinned p hp name hname account hbefore hexternal]
    simp only [Balances.around, hv]
    rfl
  | true =>
    have hthen : BalanceName.afterAccount? name = some account := by
      rw [BalanceName.afterAccount?, hv]
    obtain ⟨term, hmem, hinside⟩ := hsettled name hname account hthen
    obtain ⟨c, hc, hvalue⟩ := value_of_isModel hmodel hderive hmem fun n hn acc hacc =>
      hinside n hn (BalanceName.isBalance_of_beforeAccount? hacc)
    rw [Balances.around_afterwards hthen, hafter account c hc,
      BalanceName.afterAccount?_eq_some hthen, hvalue]

/-- A predicate that assigns a balance is true of the balances around the delta. -/
theorem holds_of_assignment {account : String} {term : Expr}
    (hderive : Conservation.derive i b j.precision = .ok δ)
    (hafter : δ.IsWrittenIn after)
    (hp : p ∈ i.verify) (hbalances : p.IsAboutBalances i)
    (hassign : p.assignment? = some (account, term)) :
    p.Holds j.precision (b.around after) := by
  obtain ⟨bindings, -, hassigned⟩ := Conservation.derive_ok hderive
  obtain ⟨value, hvalue, hchange⟩ := hassigned _ (List.mem_filterMap.mpr ⟨p, hp, hassign⟩)
  obtain ⟨hnamed, -⟩ := Predicate.assignment?_eq_some hassign
  rw [Predicate.holds_assignment_iff hassign, Balances.around_afterwards hnamed,
    hafter account _ hchange]
  refine Conservation.value?_of_evaluate hvalue fun n hn => ⟨fun acc hacc => ?_, fun hnone => ?_⟩
  · simp only [Balances.around, hacc]
  · obtain ⟨hbalance, -⟩ := hbalances n (Predicate.mem_occurrences_of_assignment? hassign hn)
    rw [BalanceName.isBalance, hnone] at hbalance
    exact absurd hbalance Bool.false_ne_true

/-- A predicate across an approved transition is true of the balances around its delta, if it is
about balances and the intent settles it. -/
theorem holds_of_approved (h : (j.decide course i b).1.approved = true)
    (hδ : (j.decide course i b).1.delta = some δ)
    (hafter : δ.IsWrittenIn after)
    (hp : p ∈ i.verify) (hbalances : p.IsAboutBalances i)
    (hsettled : p.IsSettledBy i) : p.Holds j.precision (b.around after) := by
  obtain ⟨hpoll, δ', hδ', hderive, -⟩ := decide_approved h
  obtain rfl := Option.some.inj (hδ.symm.trans hδ')
  by_cases hlogic : VerifierId.logic ∈ j.activated i
  · obtain ⟨ρ, hmodel⟩ := Logic.exists_of_approve (approve_of_poll hpoll hlogic)
    exact holds_of_isModel hmodel hderive hafter (List.mem_append_right _ hp) hbalances hsettled
  · obtain ⟨account, term, hassign⟩ := assignment_of_logic_notMem hlogic p hp
    exact holds_of_assignment hderive hafter hp hbalances hassign

end Judge
end LedgerGate

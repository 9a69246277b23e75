import LedgerGate.Proofs.Judge

/-!
# When verdicts approve

The first verdict of each verifier that was called decides, unless a rejection decides alone.
So what is approved in every order is exactly what is unanimous: every verdict of a called
verifier counts (`Consensus.approved_iff`). A verifier that contradicts itself is the only
reason why a list of verdicts can be approved in one order and not in another. A poll approves
if and only if it hears all verifiers and all their verdicts count, whatever else happens to
their tasks (`Judge.approved_poll_iff`).
-/

namespace LedgerGate
namespace Consensus

variable {t : Thresholds} {activated : List VerifierId} {vs ws : List Verdict} {v : Verdict}

/-! ## Verdicts that count -/

/-- Whether a verdict is an approval with enough confidence. -/
def Counts (t : Thresholds) (v : Verdict) : Prop :=
  v.decision = .approve ∧ t.approval ≤ v.confidence

/-- Whether a verdict is a rejection with so much confidence that it decides alone. -/
def Vetoes (t : Thresholds) (v : Verdict) : Prop :=
  v.decision = .reject ∧ t.rejection ≤ v.confidence

/-- Whether every verifier that was called is heard, and nobody speaks against an approval. -/
structure IsUnanimous (t : Thresholds) (activated : List VerifierId) (vs : List Verdict) :
    Prop where
  called : activated ≠ []
  vetoFree : ∀ v ∈ vs, ¬ Vetoes t v
  heard : ∀ id ∈ activated, ∃ v ∈ vs, v.verifier = id
  counts : ∀ v ∈ vs, v.verifier ∈ activated → Counts t v

/-- Whether no verifier that was called both approves and does not. -/
def IsConsistent (t : Thresholds) (activated : List VerifierId) (vs : List Verdict) : Prop :=
  ∀ v ∈ vs, ∀ w ∈ vs, v.verifier = w.verifier → v.verifier ∈ activated → Counts t v → Counts t w

theorem approves_iff : approves t v = true ↔ Counts t v := by
  simp [approves, Counts]

theorem isShortCircuit_iff : isShortCircuit t v = true ↔ Vetoes t v := by
  simp [isShortCircuit, Vetoes]

/-! ## The decision -/

theorem verdictOf_eq_some {id : VerifierId} (h : verdictOf vs id = some v) :
    v ∈ vs ∧ v.verifier = id := by
  have hid := List.find?_some h
  exact ⟨List.mem_of_find?_eq_some h, of_decide_eq_true hid⟩

theorem exists_verdictOf {id : VerifierId} (h : ∃ v ∈ vs, v.verifier = id) :
    ∃ v, verdictOf vs id = some v := by
  obtain ⟨v, hv, hid⟩ := h
  apply Option.isSome_iff_exists.mp
  rw [verdictOf, List.find?_isSome]
  exact ⟨v, hv, decide_eq_true hid⟩

/-- Nothing keeps a verifier from having approved if and only if its first verdict counts. -/
theorem blocker?_eq_none_iff {id : VerifierId} :
    blocker? t vs id = none ↔ ∃ v, verdictOf vs id = some v ∧ Counts t v := by
  unfold blocker?
  cases hfirst : verdictOf vs id with
  | none => simp
  | some v =>
    by_cases hcounts : approves t v = true
    · simp [hcounts, approves_iff.mp hcounts]
    · have hnot : ¬ Counts t v := fun h => hcounts (approves_iff.mpr h)
      simp [hcounts, hnot]

/-- What decides: no veto, and the first verdict of every verifier that was called. -/
theorem decide_fst_iff :
    (decide t activated vs).1 = true ↔ activated ≠ [] ∧ (∀ v ∈ vs, ¬ Vetoes t v) ∧
      ∀ id ∈ activated, ∃ v, verdictOf vs id = some v ∧ Counts t v := by
  have hveto : vs.find? (isShortCircuit t) = none ↔ ∀ v ∈ vs, ¬ Vetoes t v := by
    rw [List.find?_eq_none]
    exact forall₂_congr fun v _ => not_congr isShortCircuit_iff
  unfold decide
  cases hfind : vs.find? (isShortCircuit t) with
  | some v =>
    -- the code ends at the first veto that it finds
    have hsome : ¬ ∀ v ∈ vs, ¬ Vetoes t v := fun h => by
      rw [hveto.mpr h] at hfind
      cases hfind
    simp [hsome]
  | none =>
    have hblockers : activated.filterMap (blocker? t vs) = [] ↔
        ∀ id ∈ activated, ∃ v, verdictOf vs id = some v ∧ Counts t v := by
      rw [List.filterMap_eq_nil_iff]
      exact forall₂_congr fun id _ => blocker?_eq_none_iff
    have hfree := hveto.mp hfind
    rw [and_iff_right hfree, ← hblockers]
    by_cases hcalled : activated = []
    · simp [hcalled]
    · by_cases hall : activated.filterMap (blocker? t vs) = []
      · simp [hcalled, hall]
      · simp [hcalled, hall]

/-! ## Unanimity -/

namespace IsUnanimous

theorem perm (h : IsUnanimous t activated vs) (hp : ws.Perm vs) : IsUnanimous t activated ws where
  called := h.called
  vetoFree := fun v hv => h.vetoFree v (hp.mem_iff.mp hv)
  heard := fun id hid => by
    obtain ⟨v, hv, hverifier⟩ := h.heard id hid
    exact ⟨v, hp.mem_iff.mpr hv, hverifier⟩
  counts := fun v hv => h.counts v (hp.mem_iff.mp hv)

theorem approved (h : IsUnanimous t activated vs) :
    (aggregate t activated vs).approved = true := by
  refine decide_fst_iff.mpr ⟨h.called, h.vetoFree, ?_⟩
  intro id hid
  obtain ⟨v, hfirst⟩ := exists_verdictOf (h.heard id hid)
  obtain ⟨hv, rfl⟩ := verdictOf_eq_some hfirst
  exact ⟨v, hfirst, h.counts v hv hid⟩

end IsUnanimous

theorem IsConsistent.perm (h : IsConsistent t activated vs) (hp : ws.Perm vs) :
    IsConsistent t activated ws := by
  intro v hv w hw
  exact h v (hp.mem_iff.mp hv) w (hp.mem_iff.mp hw)

/-- An approval is unanimous if no verifier contradicts itself. -/
theorem IsConsistent.isUnanimous (h : IsConsistent t activated vs)
    (happroved : (aggregate t activated vs).approved = true) : IsUnanimous t activated vs := by
  obtain ⟨hcalled, hfree, hfirst⟩ := decide_fst_iff.mp happroved
  constructor
  · exact hcalled
  · exact hfree
  · intro id hid
    obtain ⟨v, hv, -⟩ := hfirst id hid
    exact ⟨v, verdictOf_eq_some hv⟩
  · intro w hw hid
    obtain ⟨v, hv, hcounts⟩ := hfirst w.verifier hid
    obtain ⟨hmem, hsame⟩ := verdictOf_eq_some hv
    exact h v hmem w hw hsame (hsame.symm ▸ hid) hcounts

/-- What is approved in every order is unanimous. -/
theorem isUnanimous_of_forall_perm
    (h : ∀ ws, ws.Perm vs → (aggregate t activated ws).approved = true) :
    IsUnanimous t activated vs := by
  apply IsConsistent.isUnanimous _ (h vs (List.Perm.refl vs))
  intro v _ w hw hsame hid _
  -- in the order in which `w` comes first, it is `w` that decides for its verifier
  obtain ⟨front, back, rfl⟩ := List.append_of_mem hw
  have hfront := h (w :: (front ++ back)) List.perm_middle.symm
  obtain ⟨-, -, hfirst⟩ := decide_fst_iff.mp hfront
  obtain ⟨u, hu, hcounts⟩ := hfirst w.verifier (hsame ▸ hid)
  have hw' : verdictOf (w :: (front ++ back)) w.verifier = some w := by simp [verdictOf]
  obtain rfl := Option.some.inj (hw'.symm.trans hu)
  exact hcounts

/-- The first verdict of each verifier decides; unanimous is what every order of the verdicts
approves; and where no verifier contradicts itself, every order gives the same decision, an
approval if and only if the verdicts are unanimous. -/
theorem approved_iff (t : Thresholds) (activated : List VerifierId) (vs : List Verdict) :
    ((aggregate t activated vs).approved = true ↔
      activated ≠ [] ∧ (∀ v ∈ vs, ¬ Vetoes t v) ∧
        ∀ id ∈ activated, ∃ v, verdictOf vs id = some v ∧ Counts t v) ∧
    (IsUnanimous t activated vs ↔
      ∀ ws, ws.Perm vs → (aggregate t activated ws).approved = true) ∧
    (IsConsistent t activated vs → ∀ ws, ws.Perm vs →
      ((aggregate t activated ws).approved = true ↔ IsUnanimous t activated vs)) := by
  refine ⟨decide_fst_iff, ⟨?_, isUnanimous_of_forall_perm⟩, ?_⟩
  · intro h ws hp
    exact (h.perm hp).approved
  · intro hconsistent ws hp
    constructor
    · intro happroved
      exact ((hconsistent.perm hp).isUnanimous happroved).perm hp.symm
    · intro h
      exact (h.perm hp).approved

/-- An approval, and a doubt of a verifier that was not called. -/
def overheard : List Verdict :=
  [.uncertain .pattern "no time", .approve .logic 0.9 "satisfiable"]

theorem approved_iff_overheard :
    IsConsistent .usual [.logic] overheard ∧
      ∀ ws, ws.Perm overheard → (aggregate .usual [.logic] ws).approved = true := by
  have hconsistent : IsConsistent .usual [.logic] overheard := by
    intro v hv w hw hsame hid hcounts
    simp only [overheard, List.mem_cons, List.not_mem_nil, or_false] at hv hw
    obtain rfl | rfl := hv
    · exact absurd hid (by decide)
    · obtain rfl | rfl := hw
      · exact absurd hsame (by decide)
      · exact hcounts
  have h := (approved_iff .usual [.logic] overheard).2.2 hconsistent
  have hunanimous := (h overheard (List.Perm.refl _)).mp (by decide)
  exact ⟨hconsistent, fun ws hp => (h ws hp).mpr hunanimous⟩

/-- Where a verifier contradicts itself, what it says first decides. -/
example :
    (aggregate .usual [.logic]
      [.approve .logic 0.9 "satisfiable", .uncertain .logic "no time"]).approved = true ∧
    (aggregate .usual [.logic]
      [.uncertain .logic "no time", .approve .logic 0.9 "satisfiable"]).approved = false := by
  decide

end Consensus

namespace Judge

variable {j : Judge} {course : Course} {i : Intent} {b : Balances}

/-! ## What a poll hears -/

/-- Whether all tasks of a poll end with what their verifiers say that nothing tells to stop. -/
def HearsAll (j : Judge) (course : Course) (i : Intent) (b : Balances) : Prop :=
  ∀ id ∈ j.activated i,
    j.taskVerdict? i b id (course.fate id) = some (verdict j.pattern (j.context i b) id)

theorem hearsAll_calm : j.HearsAll .calm i b := fun _ _ => rfl

/-- What is gathered when all verifiers are heard are their verdicts, in some order. -/
theorem HearsAll.perm (h : j.HearsAll course i b) :
    (j.gather course i b).Perm ((j.activated i).map (verdict j.pattern (j.context i b))) := by
  have harrivals := course.arrivals_perm (j.activated i)
  have hheard : j.heard course i b =
      (course.arrivals (j.activated i)).map (verdict j.pattern (j.context i b)) := by
    rw [heard, ← List.filterMap_eq_map]
    apply List.filterMap_congr
    intro id hid
    exact h id (harrivals.mem_iff.mp hid)
  obtain ⟨g, hg, hgather⟩ := j.gather_eq course i b
  have hmissing : (j.activated i).filter g.misses = [] := by
    rw [List.filter_eq_nil_iff]
    intro id hid hmisses
    have hmem : verdict j.pattern (j.context i b) id ∈ g.verdicts := by
      rw [hg, hheard]
      exact List.mem_map_of_mem (harrivals.mem_iff.mpr hid)
    exact Gathering.misses_iff.mp hmisses _ hmem (verifier_verdict _ _ id)
  rw [hgather, hmissing, List.map_nil, List.append_nil, hg, hheard]
  exact harrivals.map _

/-- A poll approves if and only if all verifiers are heard and all their verdicts count. So what
happens to the tasks of verifiers, and the order in which they end, can keep an intent from being
approved, but never have it approved. -/
theorem approved_poll_iff : (j.poll course i b).approved = true ↔
    j.HearsAll course i b ∧
      Consensus.IsUnanimous j.thresholds (j.activated i)
        ((j.activated i).map (verdict j.pattern (j.context i b))) := by
  constructor
  · intro h
    have hall : j.HearsAll course i b := fun id hid => (task_of_approved h hid).1
    have hconsistent : Consensus.IsConsistent j.thresholds (j.activated i)
        ((j.activated i).map (verdict j.pattern (j.context i b))) := by
      intro v hv w hw hsame _ hcounts
      obtain ⟨id, -, rfl⟩ := List.mem_map.mp hv
      obtain ⟨id', -, rfl⟩ := List.mem_map.mp hw
      rw [verifier_verdict, verifier_verdict] at hsame
      exact hsame ▸ hcounts
    exact ⟨hall, ((hconsistent.perm hall.perm).isUnanimous h).perm hall.perm.symm⟩
  · rintro ⟨hall, hunanimous⟩
    exact (hunanimous.perm hall.perm).approved

/-- What is approved is also approved when nothing happens to the verifiers, by the same
verdicts. -/
theorem poll_calm_of_approved (h : (j.poll course i b).approved = true) :
    (j.poll .calm i b).approved = true ∧
      (j.poll course i b).verdicts.Perm (j.poll .calm i b).verdicts := by
  obtain ⟨hall, hunanimous⟩ := approved_poll_iff.mp h
  exact ⟨approved_poll_iff.mpr ⟨hearsAll_calm, hunanimous⟩, hall.perm.trans hearsAll_calm.perm.symm⟩

end Judge
end LedgerGate

import LedgerGate.Proofs.Ledger.Interruption
import LedgerGate.Proofs.Ledger.Sections
import Mathlib.Logic.Function.Basic

/-!
# Commits that interleave

Calls of commit may be at work at the same time. What the locks of a layer make of a call is a
sequence of sections, and between any two of them sections of other calls may come (`Section`). A
call that no other one comes between is a commit (`sections_of_commit`).
-/

namespace LedgerGate.Ledger

open Log (Entry openIn endedIn committedIn)
open Function (update)

/-! ## Calls and their sections -/

/-- What a call of commit is given. -/
structure Request where
  tx : String
  decision : Consensus
  host : Host
  /-- Where the call is told to stop, if it is. -/
  crash : Option CrashPoint

/-- The entry that begins the transaction of a request. -/
def Request.entry (q : Request) (δ : Delta) : Entry :=
  ⟨.begin, q.tx, payloadHash q.tx q.decision.intentHash δ, q.host.clock 0⟩

/-- How far a call has come. -/
inductive Phase where
  | waiting
  /-- There is a delta to apply. -/
  | admitted (δ : Delta)
  /-- The accounts of the delta are taken. -/
  | holding (δ : Delta)
  /-- The delta was made on the current balances. -/
  | checked (δ : Delta)
  /-- The beginning is in the log. -/
  | begun (δ : Delta)
  /-- The end is in the log. -/
  | ended (δ : Delta)
  | returned (r : Except Fault Outcome)

namespace Phase

/-- The accounts that no other call may take. -/
def held : Phase → List String
  | holding δ | checked δ | begun δ | ended δ => δ.accounts
  | _ => []

/-- The phase after the first section. -/
def ofAdmission : Except Fault (Option Delta) → Phase
  | .error f => returned (.error f)
  | .ok none => returned (.ok .discarded)
  | .ok (some δ) => admitted δ

/-- The phase after the section that changes the state. -/
def ofApplied (δ : Delta) : Except Fault Outcome → Phase
  | .ok .committed => ended δ
  | r => returned r

end Phase

/-- A layer with the calls that are at work on it. -/
structure System (ι : Type) where
  disk : Disk
  layer : Layer
  phase : ι → Phase
  /-- The calls whose new states got into the state file, in order. -/
  installed : List ι

namespace System

variable {ι : Type} [DecidableEq ι]

/-- The system in which no call has done anything. -/
def start (d : Disk) (l : Layer) : System ι := ⟨d, l, fun _ => .waiting, []⟩

/-- The system when a call has come to a phase. -/
def advance (s : System ι) (i : ι) (p : Phase) : System ι := { s with phase := update s.phase i p }

/-- The system when a call has tried to log the beginning of its transaction. -/
def afterBegin (s : System ι) (i : ι) (q : Request) (δ : Delta) (d : Disk) :
    Except Fault Layer → System ι
  | .error f => { s with disk := d }.advance i (.returned (.error f))
  | .ok l =>
    if q.crash = some .beginLogged then
      { s with disk := d, layer := (l.crashed .beginLogged).1 }.advance i
        (.returned (l.crashed .beginLogged).2)
    else { s with disk := d, layer := l }.advance i (.begun δ)

/-- The calls whose states got into the state file, when a call has left a layer. The version tells
whether it has put a new state there. -/
def installedWith (s : System ι) (i : ι) (l : Layer) : List ι :=
  if l.state.version = s.layer.state.version then s.installed else s.installed ++ [i]

/-- The system when a call has tried to change the state. -/
def afterApply (s : System ι) (i : ι) (δ : Delta) (d : Disk) (c : Layer.Committed) : System ι :=
  { s with disk := d, layer := c.1, installed := s.installedWith i c.1 }.advance i
    (.ofApplied δ c.2)

end System

section

variable {ι : Type} [DecidableEq ι] (requests : ι → Request)

/-- One section of a call. File operations may fail where a transaction begins and where it is
applied. -/
inductive Section : System ι → System ι → Prop
  | enter {s : System ι} {i : ι} : s.phase i = .waiting →
    Section s (s.advance i
      (.ofAdmission (s.layer.admission (requests i).tx (requests i).decision)))
  | take {s : System ι} {i : ι} {δ : Delta} : s.phase i = .admitted δ →
    (∀ j, ∀ a ∈ (s.phase j).held, a ∉ δ.accounts) → Section s (s.advance i (.holding δ))
  | check {s : System ι} {i : ι} {δ : Delta} : s.phase i = .holding δ →
    Section s (s.advance i
      (if s.layer.isStale δ then .returned (.ok .discarded) else .checked δ))
  | begin {s : System ι} {i : ι} {δ : Delta} {r : Except Fault Layer} {d : Disk} :
    s.phase i = .checked δ →
    (s.layer.logStep ((requests i).entry δ)).run.Yields
      (FileOp.MayFail s.layer.log.id) s.disk r d →
    Section s (s.afterBegin i (requests i) δ d r)
  | apply {s : System ι} {i : ι} {δ : Delta} {c : Layer.Committed} {d : Disk} :
    s.phase i = .begun δ →
    (s.layer.applyBegun ((requests i).entry δ) ((requests i).host.clock 1)
      (requests i).decision.intentHash δ (requests i).crash).Yields
      (FileOp.MayFail s.layer.log.id) s.disk c d →
    Section s (s.afterApply i δ d c)
  | finish {s : System ι} {i : ι} {δ : Delta} {c : Layer.Committed} {d : Disk} :
    s.phase i = .ended δ → (s.layer.finish (requests i).crash).run s.disk = (c, d) →
    Section s ({ s with disk := d, layer := c.1 }.advance i (.returned c.2))

/-- Sections of any calls, one after another. -/
abbrev Sections : System ι → System ι → Prop := Relation.ReflTransGen (Section requests)

end

section

variable {ι : Type} [DecidableEq ι] {requests : ι → Request} {s : System ι} {i : ι}

theorem advance_advance (s : System ι) (i : ι) (p q : Phase) :
    (s.advance i p).advance i q = s.advance i q := by
  simp [System.advance]

@[simp]
theorem phase_advance (s : System ι) (i : ι) (p : Phase) : (s.advance i p).phase i = p := by
  simp [System.advance]

@[simp]
theorem layer_advance (s : System ι) (i : ι) (p : Phase) : (s.advance i p).layer = s.layer := rfl

theorem phase_advance_ne (s : System ι) {i j : ι} (p : Phase) (h : j ≠ i) :
    (s.advance i p).phase j = s.phase j := by
  simp [System.advance, h]

/-- When a call has come to a phase, the others are where they were. -/
theorem forall_phase_advance {P : ι → Phase → Prop} {p : Phase} (hp : P i p)
    (hothers : ∀ j, j ≠ i → P j (s.phase j)) : ∀ j, P j ((s.advance i p).phase j) := by
  intro j
  by_cases hj : j = i
  · rwa [hj, phase_advance]
  · rw [phase_advance_ne s p hj]
    exact hothers j hj

theorem afterApply_advance (s : System ι) (i : ι) (p : Phase) (δ : Delta) (d : Disk)
    (c : Layer.Committed) : (s.advance i p).afterApply i δ d c = s.afterApply i δ d c := by
  exact advance_advance { s with disk := d, layer := c.1, installed := s.installedWith i c.1 } i p _

omit [DecidableEq ι] in
theorem installedWith_of_eq {l : Layer} (h : l.state = s.layer.state) :
    s.installedWith i l = s.installed := if_pos (congrArg State.version h)

omit [DecidableEq ι] in
theorem installedWith_of_applied {l : Layer} {next : State} {t intentHash payload : String}
    {δ : Delta} (hn : s.layer.state.applied t intentHash payload δ = .ok next)
    (h : l.state = next) : s.installedWith i l = s.installed ++ [i] := by
  refine if_neg ?_
  rw [h, (State.version_applied hn).1]
  omega

theorem sections_of_beginAndApply {δ : Delta} {c : Layer.Committed} {d : Disk}
    (hchecked : s.phase i = .checked δ)
    (hrun : (s.layer.beginAndApply ((requests i).entry δ) ((requests i).host.clock 1)
      (requests i).decision.intentHash δ (requests i).crash).run s.disk = (c, d)) :
    ∃ installed, Sections requests s
      ({ s with disk := d, layer := c.1, installed := installed }.advance i (.returned c.2)) := by
  unfold Layer.beginAndApply at hrun
  rw [Program.run_bind] at hrun
  rcases hlog : (s.layer.logStep ((requests i).entry δ)).run.run s.disk with ⟨r, d₁⟩
  have hbegin : Section requests s _ := .begin hchecked (Program.yields_of_run hlog)
  rw [hlog] at hrun
  cases r with
  | error f =>
    obtain ⟨rfl, rfl⟩ := Prod.mk.inj hrun
    exact ⟨s.installed, .single hbegin⟩
  | ok l =>
    change Program.run (ite _ _ _) d₁ = _ at hrun
    change Section requests s (ite _ _ _) at hbegin
    split at hrun
    · next hcrash =>
      obtain ⟨rfl, rfl⟩ := Prod.mk.inj hrun
      rw [if_pos hcrash] at hbegin
      exact ⟨s.installed, .single hbegin⟩
    · next hcrash =>
      rw [if_neg hcrash] at hbegin
      rw [Program.run_bind] at hrun
      rcases happly : (l.applyBegun ((requests i).entry δ) ((requests i).host.clock 1)
        (requests i).decision.intentHash δ (requests i).crash).run d₁ with ⟨c₁, d₂⟩
      have hsection : Section requests
          ({ s with disk := d₁, layer := l }.advance i (.begun δ)) _ :=
        .apply (phase_advance ..) (Program.yields_of_run happly)
      rw [happly] at hrun
      rw [afterApply_advance] at hsection
      have happlied := (Relation.ReflTransGen.single hbegin).tail hsection
      obtain ⟨l₁, r⟩ := c₁
      match r, hrun, happlied with
      | .ok .committed, hrun, happlied =>
        refine ⟨System.installedWith { s with disk := d₁, layer := l } i l₁, happlied.tail ?_⟩
        rw [← advance_advance _ i (.ended δ)]
        exact .finish (phase_advance ..) hrun
      | .ok .discarded, hrun, happlied | .error f, hrun, happlied =>
        obtain ⟨rfl, rfl⟩ := Prod.mk.inj hrun
        exact ⟨_, happlied⟩

/-- A call that is admitted takes its accounts if no other call has one of them. -/
theorem sections_to_holding {δ : Delta} (hwaiting : s.phase i = .waiting)
    (hadm : s.layer.admission (requests i).tx (requests i).decision = .ok (some δ))
    (hfree : ∀ j, ∀ a ∈ (s.phase j).held, a ∉ δ.accounts) :
    Sections requests s (s.advance i (.holding δ)) := by
  have henter : Section requests s _ := .enter hwaiting
  rw [hadm] at henter
  have htake : Section requests _ ((s.advance i (.admitted δ)).advance i (.holding δ)) :=
    .take (phase_advance ..) (forall_phase_advance (P := fun _ p => ∀ a ∈ p.held, a ∉ δ.accounts)
      nofun fun j _ => hfree j)
  rw [advance_advance] at htake
  exact (Relation.ReflTransGen.single henter).tail htake

/-- A call that no other one comes between is a commit. -/
theorem sections_of_commit {c : Layer.Committed} {d : Disk} (hwaiting : s.phase i = .waiting)
    (hfree : ∀ j, (s.phase j).held = [])
    (hrun : (s.layer.commit (requests i).tx (requests i).decision (requests i).host
      (requests i).crash).run s.disk = (c, d)) :
    ∃ installed, Sections requests s
      ({ s with disk := d, layer := c.1, installed := installed }.advance i (.returned c.2)) := by
  have henter : Section requests s _ := .enter hwaiting
  unfold Layer.commit at hrun
  split at hrun
  · next f hadm =>
    obtain ⟨rfl, rfl⟩ := Prod.mk.inj hrun
    rw [hadm] at henter
    exact ⟨s.installed, .single henter⟩
  · next hadm =>
    obtain ⟨rfl, rfl⟩ := Prod.mk.inj hrun
    rw [hadm] at henter
    exact ⟨s.installed, .single henter⟩
  · next δ hadm =>
    have hholding := sections_to_holding hwaiting hadm fun j a ha => by simp [hfree j] at ha
    have hcheck : Section requests (s.advance i (.holding δ)) _ := .check (phase_advance ..)
    rw [advance_advance] at hcheck
    have hchecked := hholding.tail hcheck
    rw [layer_advance] at hchecked
    split at hrun
    · next hstale =>
      obtain ⟨rfl, rfl⟩ := Prod.mk.inj hrun
      rw [if_pos hstale] at hchecked
      exact ⟨s.installed, hchecked⟩
    · next hstale =>
      rw [if_neg hstale] at hchecked
      obtain ⟨installed, hrest⟩ := sections_of_beginAndApply (s := s.advance i (.checked δ))
        (phase_advance ..) hrun
      refine ⟨installed, hchecked.trans ?_⟩
      simpa [System.advance] using hrest

end

/-! ## Sections that succeed -/

section

variable {ι : Type} [DecidableEq ι] (requests : ι → Request) {s : System ι} {i : ι} {n : Nat}
  {F : Files} {δ : Delta}

/-- A call of which the delta may be applied gets the beginning of its transaction into the log. -/
theorem sections_to_begun (hs : Stores s.disk n F) (hl : s.layer.Mirrors n F)
    (htidy : Tidy none s.disk) (hwaiting : s.phase i = .waiting)
    (hadm : s.layer.admission (requests i).tx (requests i).decision = .ok (some δ))
    (hfree : ∀ j, ∀ a ∈ (s.phase j).held, a ∉ δ.accounts) (hstale : s.layer.isStale δ = false)
    (hnew : s.layer.isUsed (requests i).tx = false)
    (hcrash : (requests i).crash ≠ some .beginLogged) :
    ∃ (log : Log.File) (s' : System ι), Sections requests s s' ∧
      s'.phase = update s.phase i (.begun δ) ∧ s'.installed = s.installed ∧
      s'.layer = s.layer.noted log ((requests i).entry δ) ∧
      Stores s'.disk n { F with log := F.log ++ [(requests i).entry δ] } ∧
      s'.layer.Mirrors n { F with log := F.log ++ [(requests i).entry δ] } ∧
      Tidy none s'.disk := by
  obtain rfl := hl.id
  have hholding := sections_to_holding hwaiting hadm hfree
  have hcheck : Section requests (s.advance i (.holding δ)) _ := .check (phase_advance ..)
  rw [layer_advance, hstale, if_neg Bool.false_ne_true, advance_advance] at hcheck
  obtain ⟨log, hlog⟩ := Layer.run_logStep (l := s.layer) (d := s.disk)
    (e := (requests i).entry δ) (by simp [Layer.refuseStep, hnew, Request.entry, Log.Op.isTerminal])
  have hyields : Program.Yields (FileOp.MayFail s.layer.log.id) _ _ _ _ :=
    Program.yields_of_run hlog
  have hbegin : Section requests (s.advance i (.checked δ)) _ :=
    .begin (phase_advance ..) hyields
  rcases Layer.yields_logStep hs hl hyields with ⟨log', hlog', hok, hid, hname, hs'⟩ | ⟨⟨f, hf⟩, -⟩
  · rw [Except.ok.inj hlog', System.afterBegin, if_neg hcrash] at hbegin
    have hend : (requests i).tx ∉ Log.endedIn F.log := fun hend =>
      Layer.isUsed_of_refuseStep hok (hl.isUsed_iff.mpr (Files.mem_ids_iff.mpr (.inr (.inl hend))))
    have hl' := hl.noted_begin (e := (requests i).entry δ) rfl hend hid hname
    refine ⟨log', _, (hholding.tail hcheck).tail hbegin, ?_, rfl, rfl, hs', hl', htidy.append _ _⟩
    simp [System.advance]
  · cases hf

/-- A call that is to stop when its state is in the state file comes to that. -/
theorem section_of_renamed (hs : Stores s.disk n F) (hl : s.layer.Mirrors n F)
    (htidy : Tidy none s.disk) (hbegun : s.phase i = .begun δ)
    (hversion : F.state.version < State.maxVersion) (hcrash : (requests i).crash = some .renamed) :
    ∃ (next : State) (s' : System ι),
      F.state.applied (requests i).tx (requests i).decision.intentHash
        ((requests i).entry δ).payloadHash δ = .ok next ∧
      Section requests s s' ∧
      s'.phase = update s.phase i (.returned ((s.layer.follow next).crashed .renamed).2) ∧
      s'.installed = s.installed ++ [i] ∧
      s'.layer = ((s.layer.follow next).crashed .renamed).1 ∧
      Stores s'.disk n { F with state := next } ∧
      s'.layer.Mirrors n { F with state := next } ∧ Tidy none s'.disk := by
  obtain rfl := hl.id
  rw [← hl.state] at hversion ⊢
  obtain ⟨next, d, hn, hrun, htidy'⟩ := Layer.run_applyBegun_renamed (b := (requests i).entry δ)
    ((requests i).host.clock 1) (requests i).decision.intentHash δ hversion htidy
  rw [← hcrash] at hrun
  have hyields : Program.Yields (FileOp.MayFail s.layer.log.id) _ _ _ _ :=
    Program.yields_of_run hrun
  have happly : Section requests s _ := .apply hbegun hyields
  rw [System.afterApply, installedWith_of_applied hn rfl] at happly
  obtain ⟨F', hs', hc⟩ := Layer.yields_applyBegun hs hl hyields
  obtain rfl := hc.files_of_state hn rfl nofun
  have hl' : (s.layer.follow next).Mirrors _ { F with state := next } := { hl with state := rfl }
  exact ⟨next, _, hn, happly, rfl, rfl, rfl, hs', hl'.halt _, htidy'⟩

/-- A call that is not to stop commits its transaction. -/
theorem section_of_committed (hs : Stores s.disk n F) (hl : s.layer.Mirrors n F)
    (htidy : Tidy none s.disk) (hbegun : s.phase i = .begun δ)
    (hopen : s.layer.isBegun (requests i).tx = true)
    (hversion : F.state.version < State.maxVersion) (hcrash : (requests i).crash = none) :
    ∃ (next : State) (s' : System ι),
      F.state.applied (requests i).tx (requests i).decision.intentHash
        ((requests i).entry δ).payloadHash δ = .ok next ∧
      Section requests s s' ∧ s'.phase = update s.phase i (.ended δ) ∧
      s'.installed = s.installed ++ [i] ∧ s'.layer.state = next ∧
      Stores s'.disk n { F with
        state := next
        log := F.log ++ [((requests i).entry δ).ending .commit ((requests i).host.clock 1)] } ∧
      Tidy none s'.disk := by
  obtain rfl := hl.id
  rw [← hl.state] at hversion ⊢
  obtain ⟨next, log, d, hn, hrun, htidy'⟩ := Layer.run_applyBegun (b := (requests i).entry δ)
    ((requests i).host.clock 1) (requests i).decision.intentHash δ hopen hversion htidy
  rw [← hcrash] at hrun
  have hyields : Program.Yields (FileOp.MayFail s.layer.log.id) _ _ _ _ :=
    Program.yields_of_run hrun
  have happly : Section requests s _ := .apply hbegun hyields
  rw [System.afterApply, installedWith_of_applied hn (Layer.state_noted ..)] at happly
  obtain ⟨F', hs', hc⟩ := Layer.yields_applyBegun hs hl hyields
  obtain rfl := hc.files_of_committed hn rfl
  exact ⟨next, _, hn, happly, rfl, rfl, Layer.state_noted .., hs', htidy'⟩

end

end LedgerGate.Ledger

import LedgerGate.Proofs.Ledger.Operations

/-!
# Open ledgers

An open ledger mirrors its files (`Layer.Mirrors`). Logging a step of a transaction and
compacting the log keep it so.
-/

namespace LedgerGate

open Ledger
open Log (Entry lines openIn endedIn)

/-- Whether an open ledger says of its files what they hold. Entries that it has yet to retire
may be retired already. -/
structure Layer.Mirrors (l : Layer) (i : Nat) (F : Files) : Prop where
  id : l.log.id = i
  name : l.log.name = logName
  logTail : F.logTail = []
  retiredTail : F.retiredTail = []
  state : l.state = F.state
  begun : l.begun = openIn F.log
  ended : ∀ t, t ∈ l.ended ↔ t ∈ endedIn F.log ∨ t ∈ F.retired.map Entry.tx
  unretired_mem : ∀ e ∈ l.unretired, e.IsSound ∧ e.op ≠ .begin ∧ e.tx ∈ endedIn F.log
  unretired : ∀ t ∈ endedIn F.log, t ∈ l.unretired.map Entry.tx ∨ t ∈ F.retired.map Entry.tx
  endedInLog : l.endedInLog = (endedIn F.log).length

/-- The identifiers that an open ledger refuses are those that have been used. -/
theorem Layer.Mirrors.isUsed_iff {l : Layer} {i : Nat} {F : Files} (hl : l.Mirrors i F)
    {t : String} : l.isUsed t = true ↔ t ∈ F.ids := by
  rw [Files.mem_ids_iff, ← hl.ended, ← hl.begun]
  simp [isUsed, isBegun]

/-- Whether a layer stands for the ledger on a disk. One that serves has no open
transaction. -/
def Layer.StandsFor {η : Type} (l : Layer) (J : η → Files → Prop) (h : η) (d : Disk) : Prop :=
  ∃ i F, Stores d i F ∧ F.Coherent J h ∧ l.Mirrors i F ∧ (l.fault = none → l.begun = [])

namespace Layer

variable {η : Type} {note : η → List Entry → η} {J : η → Files → Prop} {h : η}
  {d d' : Disk} {i : Nat} {F : Files} {l : Layer}

theorem Mirrors.halt (hl : l.Mirrors i F) (reason : String) : (l.halt reason).Mirrors i F :=
  { hl with }

theorem Mirrors.noted_begin (hl : l.Mirrors i F) {e : Entry} {log : Log.File} (hop : e.op = .begin)
    (hend : e.tx ∉ endedIn F.log) (hid : log.id = i) (hname : log.name = logName) :
    (l.noted log e).Mirrors i { F with log := F.log ++ [e] } := by
  rw [noted, if_pos hop]
  have hended : endedIn (F.log ++ [e]) = endedIn F.log := by
    rw [Log.endedIn_append, Log.endedIn_begin hop, List.append_nil]
  exact { hl with
    id := hid
    name := hname
    begun := by rw [Log.openIn_append_begin hop hend, ← hl.begun]
    ended := fun t => by rw [hended]; exact hl.ended t
    unretired_mem := fun f hf => by rw [hended]; exact hl.unretired_mem f hf
    unretired := fun t ht => hl.unretired t (hended ▸ ht)
    endedInLog := by rw [hended]; exact hl.endedInLog }

theorem Mirrors.noted_terminal (hl : l.Mirrors i F) {e : Entry} {log : Log.File}
    (hop : e.op ≠ .begin) (he : e.IsSound) (hid : log.id = i) (hname : log.name = logName) :
    (l.noted log e).Mirrors i { F with log := F.log ++ [e] } := by
  rw [noted, if_neg hop]
  have hended : endedIn (F.log ++ [e]) = endedIn F.log ++ [e.tx] := by
    rw [Log.endedIn_append, Log.endedIn_terminal hop]
  refine { hl with
    id := hid
    name := hname
    begun := by rw [Log.openIn_append_terminal hop, ← hl.begun]
    ended := fun t => ?_
    unretired_mem := fun f hf => ?_
    unretired := fun t ht => ?_
    endedInLog := ?_ }
  · show t ∈ e.tx :: l.ended ↔ _
    rw [hended, List.mem_cons, hl.ended t, List.mem_append, List.mem_singleton]
    tauto
  · rw [hended, List.mem_append, List.mem_singleton]
    rcases List.mem_append.mp hf with hf | hf
    · obtain ⟨hsound, hterminal, hmem⟩ := hl.unretired_mem f hf
      exact ⟨hsound, hterminal, .inl hmem⟩
    · obtain rfl := List.mem_singleton.mp hf
      exact ⟨he, hop, .inr rfl⟩
  · show t ∈ (l.unretired ++ [e]).map Entry.tx ∨ _
    rw [hended, List.mem_append, List.mem_singleton] at ht
    rw [List.map_append, List.mem_append]
    rcases ht with ht | rfl
    · exact (hl.unretired t ht).imp_left .inl
    · exact .inl (.inr (by simp))
  · rw [hended, List.length_append, List.length_singleton, ← hl.endedInLog]

section

variable [Noting note J] [Lasting J]

/-- A step is logged unless the transaction may not take it. -/
theorem safely_logStep {Q : Layer → η → Disk → Prop} {E : Fault → η → Disk → Prop}
    {e : Entry} (hs : Stores d i F) (hF : F.Coherent J h) (hl : l.Mirrors i F) (he : e.IsSound)
    (hF' : l.refuseStep e.op e.tx = none →
      Files.Coherent J (note h (F.log ++ [e])) { F with log := F.log ++ [e] })
    (hQ : ∀ d' log, l.refuseStep e.op e.tx = none → log.id = i → log.name = logName →
      Stores d' i { F with log := F.log ++ [e] } →
      Q (l.noted log e) (note h (F.log ++ [e])) d')
    (hE : ∀ f, E f h d) : Safely note J (l.logStep e) Q E h d := by
  unfold logStep
  split
  · exact Job.keeps_fail (hE _)
  · next hok =>
    refine Job.Keeps.bind (safely_append hs hF hl.id hl.logTail he (hF' hok) fun d' n hs' => ?_)
    exact Job.keeps_pure (hQ d' _ hok hl.id hl.name hs')

end

/-! ## Compaction -/

/-- What is not retired yet is appended to the log of the retired. -/
theorem Mirrors.retire (hl : l.Mirrors i F) :
    l.Mirrors i { F with
      retired := F.retired ++ l.unretired, retiredTail := [], hasRetired := true } :=
  { hl with
    retiredTail := rfl
    ended := fun t => by
      rw [hl.ended t, List.map_append, List.mem_append]
      refine or_congr_right' fun hnot => ⟨.inl, fun ht => ht.resolve_right fun hmem => hnot ?_⟩
      obtain ⟨e, he, rfl⟩ := List.mem_map.mp hmem
      exact (hl.unretired_mem e he).2.2
    unretired := fun t ht => (hl.unretired t ht).imp_right fun hr => by
      rw [List.map_append]
      exact List.mem_append_left _ hr }

theorem Mirrors.compact (hl : l.Mirrors i F) {log : Log.File} (hname : log.name = logName)
    (hret : ∀ t ∈ endedIn F.log, t ∈ F.retired.map Entry.tx) :
    ({ l with log := log, unretired := [], endedInLog := 0 } : Layer).Mirrors log.id
      { F with log := l.begun, logTail := [] } := by
  have hnone : endedIn l.begun = [] := by rw [hl.begun, Log.endedIn_openIn]
  exact { hl with
    id := rfl
    name := hname
    logTail := rfl
    begun := by rw [hl.begun, Log.openIn_openIn]
    ended := fun t => by
      rw [hnone, hl.ended t]
      exact ⟨fun ht => .inr (ht.elim (hret t) fun hr => hr),
        fun ht => .inr (ht.resolve_left (by simp))⟩
    unretired_mem := nofun
    unretired := fun t ht => absurd ht (by simp [hnone])
    endedInLog := by rw [hnone]; rfl }

/-- What a compaction makes of a layer and its files. -/
structure Compacted (l : Layer) (F : Files) (l' : Layer) (F' : Files) : Prop where
  begun : l'.begun = l.begun
  fault : l'.fault = l.fault
  repairs : F.Repairs F'
  log : F'.log = l.begun
  retired : F'.retired = F.retired ++ l.unretired
  /-- If there was nothing to retire, the log is all that changed. -/
  same : l.unretired = [] → F' = { F with log := l.begun, logTail := [] }

/-- What a compaction that fails makes of files. -/
structure Retained (F F' : Files) : Prop where
  repairs : F.Repairs F'
  log : F'.log = F.log
  retired : F.retired ⊆ F'.retired

variable [Noting note J] [Steady J] {Q : Layer × Nat → η → Disk → Prop}
  {E : Fault → η → Disk → Prop}

/-- The second half of a compaction, when all that ended is retired. -/
theorem safely_replaceLog (hs : Stores d i F) (hF : F.Coherent J h) (hl : l.Mirrors i F)
    (hret : ∀ t ∈ endedIn F.log, t ∈ F.retired.map Entry.tx)
    (hQ : ∀ log d', Stores d' log.id { F with log := l.begun, logTail := [] } →
      F.Repair { F with log := l.begun, logTail := [] } →
      ({ l with log := log, unretired := [], endedInLog := 0 } : Layer).Mirrors log.id
        { F with log := l.begun, logTail := [] } → FewerTemps d d' →
      Q ({ l with log := log, unretired := [], endedInLog := 0 }, l.endedInLog * 2) h d')
    (hE : ∀ f, F.blocked (Log.File.replacementName logName) → E f h d) :
    Safely note J (do
      let log ← l.log.replaceAll l.begun
      return ({ l with log := log, unretired := [], endedInLog := 0 }, l.endedInLog * 2))
      Q E h d := by
  have hrearrange : F.Rearrange { F with log := l.begun, logTail := [] } := by
    rw [hl.begun]
    exact ⟨.compact hret, rfl, Log.openIn_openIn F.log⟩
  refine Job.Keeps.bind (safely_replaceAll hl.name hs hF (hF.rearrange hrearrange)
    (fun log d' hname hs' hfew => ?_) hE)
  exact Job.keeps_pure (hQ log d' hs' hrearrange.repair (hl.compact hname hret) hfew)

/-- A compaction leaves the ledger as it is, also when it fails, which it does only if a
directory is in its way. -/
theorem safely_compact (hs : Stores d i F) (hF : F.Coherent J h) (hl : l.Mirrors i F)
    (hQ : ∀ l' n d' F', Stores d' l'.log.id F' → l'.Mirrors l'.log.id F' →
      l.Compacted F l' F' → FewerTemps d d' → Q (l', n) h d')
    (hE : ∀ f d' F', F.blocked (Log.File.replacementName logName) → Stores d' i F' →
      Retained F F' → l.Mirrors i F' → E f h d') :
    Safely note J l.compact Q E h d := by
  unfold compact
  split
  · next hsome =>
    have hopen := Files.Rearrange.openRetired hl.retiredTail
    have hretire := Files.Rearrange.retire (F := { F with hasRetired := true }) hl.unretired_mem
      Log.isTorn_nil
    have hF₂ := (hF.rearrange hopen).rearrange hretire
    have hrepairs : F.Repairs _ := .tail (.single hopen.repair) hretire.repair
    refine Job.Keeps.bind (safely_openRetired hs hF hl.retiredTail fun f d₁ hs₁ hf hsame => ?_)
    refine Job.Keeps.bind (safely_appendRetired hs₁ (hF.rearrange hopen) hf hl.unretired_mem
      fun f' d₂ hs₂ hsame' => ?_)
    refine safely_replaceLog hs₂ hF₂ hl.retire (fun t ht => ?_)
      (fun log d' hs' hr hl' hfew => hQ _ _ d' _ hs' hl' ?_ fun n hn => ?_)
      fun f hb => hE f d₂ _ hb hs₂ ⟨hrepairs, rfl, List.subset_append_left _ _⟩ hl.retire
    · rw [List.map_append, List.mem_append]
      exact (hl.unretired t ht).symm
    · exact ⟨rfl, rfl, .tail hrepairs hr, rfl, rfl, fun hnil => by simp [hnil] at hsome⟩
    · have hne : n ≠ retiredName := by
        rintro rfl
        exact absurd hn (by decide)
      exact (hfew n hn).imp_right fun heq => heq.trans ((hsame' n hne).trans (hsame n hne))
  · next hempty =>
    have hnil : l.unretired = [] := by simpa using hempty
    refine safely_replaceLog hs hF hl (fun t ht => ?_)
      (fun log d' hs' hr hl' hfew => hQ _ _ d' _ hs' hl'
        ⟨rfl, rfl, .single hr, rfl, by rw [hnil, List.append_nil], fun _ => rfl⟩ hfew)
      fun f hb => hE f d F hb hs ⟨.refl, rfl, List.Subset.refl _⟩ hl
    have := hl.unretired t ht
    rw [hnil] at this
    exact this.resolve_left List.not_mem_nil

end Layer
end LedgerGate

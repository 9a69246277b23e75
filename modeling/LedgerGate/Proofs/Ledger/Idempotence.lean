import LedgerGate.Proofs.Ledger.Acceptance

/-!
# Recovery once more

What a recovery has done until it is stopped are repairs, and those change nothing that another
one finds (`Recovery.exists_recover_within`). What a recovery has settled, another one leaves as
it is (`Recovery.keeps_settled`). So recovery may be stopped and repeated at will
(`Ledger.recover_again`).
-/

namespace LedgerGate

/-- A new transaction is refused if its identifier has been used. -/
theorem Layer.refuseStep_begin (l : Layer) (tx : String) : l.refuseStep .begin tx =
    if l.isUsed tx then some (.invalidTransition tx "transaction id already used") else none := by
  simp [refuseStep, Log.Op.isTerminal]

namespace Recovery

open Ledger
open Log (Entry)

variable {dir : String} {θ θ' : Nat} {host : Host} {d d' d₁ : Disk} {i : Nat} {F : Files}
  {p : Layer × Report}

theorem IsSettled.mono (hF : IsSettled θ F) (h : θ ≤ θ') : IsSettled θ' F :=
  { hF with short := hF.short.imp_right fun hlt => hlt.trans_le h }

/-- Wherever a recovery is stopped, it has repaired the files, and no more. -/
theorem within_of_execution {ds : List Disk} {r : Option (Except Fault (Layer × Report))}
    (hd : Consistent (Within F) () d) (he : Execution (recover dir θ host).run d ds d' r) :
    Consistent (Within F) () d' := by
  obtain ⟨i, F', hs, hF'⟩ := hd
  have hkeeps : Safely unseen (Within F) (recover dir θ host) _ _ () d :=
    safely_recoverFiles hs hF'
  exact (he.keeps ⟨i, F', hs, hF'⟩ hkeeps).1

/-- Where one recovery succeeds, another one does after any repairs. It comes to the same state
and knows the same identifiers. -/
theorem exists_recover_within (hs : Stores d i F) (hF : F.Legible)
    (hrun : (recover dir θ host).run.run d = (.ok p, d')) (hd₁ : Consistent (Within F) () d₁)
    (θ' : Nat) (host' : Host) :
    ∃ p' d₂, (recover dir θ' host').run.run d₁ = (.ok p', d₂) ∧ p'.1.state = p.1.state ∧
      ∀ t, p'.1.isUsed t = p.1.isUsed t := by
  obtain ⟨-, hrepaired⟩ := outcome_of_run hs hF hrun
  obtain ⟨j, F₁, hs₁, hF₁⟩ := hd₁
  have hr : F.Repairs F₁ := hF₁.fits
  have hfree : ¬ Hindered F₁ := fun hh => by
    rw [Hindered, hr.blocked] at hh
    exact not_recover_of_hindered hs hF hh hrun
  obtain ⟨p', d₂, hrun'⟩ : ∃ p' d₂, (recover dir θ' host').run.run d₁ = (.ok p', d₂) :=
    exists_recover θ' host' hs₁ hF₁.toLegible (hr.isReadable hrepaired.readable) hfree
  obtain ⟨-, hrepaired'⟩ := outcome_of_run hs₁ hF₁.toLegible hrun'
  refine ⟨p', d₂, hrun', ?_, fun t => ?_⟩
  · rw [hrepaired'.state, hrepaired.state, hr.restored]
  · rw [Bool.eq_iff_iff, hrepaired'.used t, hrepaired.used t, hr.mem_ids]

/-- There is nothing to roll back or to take back in files that are settled, and a recovery
that does not compact earlier leaves them as they are. -/
theorem keeps_settled (hs : Stores d i F) (hF : F.Legible) (hsettled : IsSettled θ F)
    (hrun : (recover dir θ' host).run.run d = (.ok p, d')) :
    p.2.discarded = [] ∧ p.2.reverted = [] ∧ (θ ≤ θ' → ∃ j, Stores d' j F) := by
  obtain ⟨hrecovers, hrepaired⟩ := outcome_of_run hs hF hrun
  have hnone : (Log.openIn F.log).map Entry.tx = [] := by rw [hsettled.closed, List.map_nil]
  refine ⟨hrecovers.discarded.trans hnone, ?_, fun hle => ?_⟩
  · refine List.eq_nil_iff_forall_not_mem.mpr fun t ht => ?_
    exact absurd (hnone ▸ hrepaired.reverted t ht) List.not_mem_nil
  · obtain ⟨j, F', hs', -, -, hsame⟩ := hrepaired.files
    exact ⟨j, hsame (hsettled.mono hle) ▸ hs'⟩

end Recovery

namespace Ledger

open Log (Entry)
open Recovery (Within)

variable {dir : String} {b : Balances} {w : World} {d d' : Disk} {i i' : Nat} {F : Files}

/-- Two disks with the same files have the same bytes in them. -/
theorem Stores.content?_eq (hs : Stores d i F) (hs' : Stores d' i' F) :
    ∀ name ∈ [stateName, logName, retiredName], d'.content? name = d.content? name := by
  obtain ⟨j, hj⟩ := hs.state
  obtain ⟨j', hj'⟩ := hs'.state
  simp only [List.forall_mem_cons]
  refine ⟨?_, ?_, ?_, nofun⟩
  · rw [content?_of_get? hj, content?_of_get? hj']
  · rw [content?_of_get? hs.log, content?_of_get? hs'.log]
  · rw [hs.retired, hs'.retired]

/-- What any number of recoveries, one after another, may leave of a disk, each of which may
have been stopped. -/
def Retried (dir : String) : Disk → Disk → Prop :=
  Relation.ReflTransGen fun d d' =>
    ∃ threshold host ds r, Execution (recover dir threshold host).run d ds d' r

theorem Retried.within {d₁ : Disk} (h : Retried dir d d₁) (hd : Consistent (Within F) () d) :
    Consistent (Within F) () d₁ := by
  induction h with
  | refl => exact hd
  | tail _ hstep ih =>
    obtain ⟨threshold, host, ds, r, he⟩ := hstep
    exact Recovery.within_of_execution ih he

/-- Where a recovery succeeds after a run, it may be repeated and stopped at will.

Done again, it succeeds with the same state and finds nothing to roll back. It leaves the three
files as they are, byte for byte, unless the log is to be compacted earlier.

When it was stopped, any number of times and anywhere, and is then done to its end, it succeeds
with the same state and refuses the same identifiers. -/
theorem recover_again {threshold : Nat} {host : Host} {l : Layer} {report : Recovery.Report}
    (hr : Run dir b w) (hrun : (recover dir threshold host).run.run w.disk = (.ok (l, report), d)) :
    (∀ threshold' host', ∃ l' report' d',
      (recover dir threshold' host').run.run d = (.ok (l', report'), d') ∧
        l'.state = l.state ∧ report'.discarded = [] ∧ report'.reverted = [] ∧
        (threshold ≤ threshold' →
          ∀ name ∈ [stateName, logName, retiredName], d'.content? name = d.content? name)) ∧
      ∀ d₁, Retried dir w.disk d₁ → ∀ threshold' host', ∃ l' report' d',
        (recover dir threshold' host').run.run d₁ = (.ok (l', report'), d') ∧
          l'.state = l.state ∧ ∀ tx, l'.refuseStep .begin tx = l.refuseStep .begin tx := by
  obtain ⟨i, F, hs, hF⟩ := hr.sound.consistent
  have hwithin : Consistent (Within F) () w.disk := ⟨i, F, hs, hF.toLegible, .refl⟩
  refine ⟨fun threshold' host' => ?_, fun d₁ hd₁ threshold' host' => ?_⟩
  · obtain ⟨-, hrepaired⟩ := Recovery.outcome_of_run hs hF.toLegible hrun
    obtain ⟨j, F', hs', hrepairs, hsettled, -⟩ := hrepaired.files
    have hF' : F'.Legible := hF.toLegible.repairs hrepairs
    obtain ⟨⟨l', report'⟩, d', hrun', hstate, -⟩ := Recovery.exists_recover_within hs hF.toLegible
      hrun ⟨j, F', hs', hF', hrepairs⟩ threshold' host'
    obtain ⟨hdiscarded, hreverted, hsame⟩ := Recovery.keeps_settled hs' hF' hsettled hrun'
    refine ⟨l', report', d', hrun', hstate, hdiscarded, hreverted, fun hle => ?_⟩
    obtain ⟨k, hk⟩ := hsame hle
    exact hs'.content?_eq hk
  · obtain ⟨⟨l', report'⟩, d', hrun', hstate, hused⟩ := Recovery.exists_recover_within hs
      hF.toLegible hrun (hd₁.within hwithin) threshold' host'
    exact ⟨l', report', d', hrun', hstate, fun tx => by
      rw [Layer.refuseStep_begin, Layer.refuseStep_begin, hused]⟩

/-- The gift that was interrupted is taken back by the first of two recoveries, also if that was
stopped before. -/
theorem recover_again_giftInterrupted : ∃ w l report d, Run "data" twoBalances w ∧
    w.acknowledged = ["t0"] ∧ (recover "data" 8 ticking).run.run w.disk = (.ok (l, report), d) ∧
    report.reverted = ["t1"] ∧
    (∃ l' report' d', (recover "data" 8 (.still 1)).run.run d = (.ok (l', report'), d') ∧
      l'.state = l.state ∧ report'.discarded = [] ∧ report'.reverted = [] ∧
      ∀ name ∈ [stateName, logName, retiredName], d'.content? name = d.content? name) ∧
    ∀ ds d₁, Execution (recover "data" 8 ticking).run w.disk ds d₁ none → ∃ l' report' d',
      (recover "data" 8 (.still 1)).run.run d₁ = (.ok (l', report'), d') ∧
        l'.state = l.state ∧ ∀ tx, l'.refuseStep .begin tx = l.refuseStep .begin tx := by
  obtain ⟨past, w₀, l₀, l₁, d₀, h⟩ := exists_giftInterrupted
  obtain ⟨past', w, hS, rfl, -, hacknowledged, -⟩ := h.exists_story
  obtain ⟨⟨l, report⟩, d, hrun⟩ := hS.exists_recover h.load (fun _ _ _ => nofun) 8 ticking
  obtain ⟨hagain, hstopped⟩ := recover_again hS.run hrun
  obtain ⟨l', report', d', hrun', hstate, hdiscarded, hreverted, hsame⟩ := hagain 8 (.still 1)
  refine ⟨w, l, report, d, hS.run, hacknowledged, hrun, (h.recovered hrun).2.2,
    ⟨l', report', d', hrun', hstate, hdiscarded, hreverted, hsame le_rfl⟩, fun ds d₁ he => ?_⟩
  have hretried : Retried "data" w.disk d₁ := .single ⟨8, ticking, ds, none, he⟩
  exact hstopped d₁ hretried 8 (.still 1)

end Ledger
end LedgerGate

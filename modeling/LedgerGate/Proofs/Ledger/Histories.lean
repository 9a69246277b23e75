import LedgerGate.Proofs.Ledger.Refusal
import LedgerGate.Proofs.Log.Lifecycle

/-!
# The histories that recovery accepts

Where the state can be loaded and both logs can be replayed, it depends on the entries alone
whether the checks of a recovery pass: each transaction has to have a life in the log, all of
those in the log of the retired have to have ended, and none of these may be open
(`Ledger.recover_iff_wellFormed`). This is said of any entries, and not only of those that the
ledger itself writes.
-/

namespace LedgerGate.Ledger

open Log (Entry Record Replay pathOf openIn IsOrderly IsLife IsStart stepsOf)
open Recovery

variable {dir : String} {d : Disk} {s : State} {log retired : List Record}

/-! ## What is checked -/

/-- Whether the entries of both logs fit together. -/
structure WellFormed (log retired : List Entry) : Prop where
  lives : ∀ t ∈ log.map Entry.tx, IsLife (stepsOf t log)
  ended : ∀ e ∈ retired, e.op = .commit ∨ e.op = .rollback
  unretired : ∀ t, stepsOf t log = [.begin] → t ∉ retired.map Entry.tx

theorem lives_iff {es : List Entry} :
    (∀ t ∈ es.map Entry.tx, IsLife (stepsOf t es)) ↔ IsOrderly es := by
  rw [Log.isOrderly_iff]
  constructor
  · intro h t
    by_cases ht : t ∈ es.map Entry.tx
    · exact Log.isStart_iff.mpr (.inr (h t ht))
    · exact Log.isStart_iff.mpr (.inl (Log.stepsOf_eq_nil_iff.mpr ht))
  · intro h t ht
    exact (Log.isStart_iff.mp (h t)).resolve_left fun hnil => Log.stepsOf_eq_nil_iff.mp hnil ht

/-- What is well-formed, said of the log as a whole. -/
theorem wellFormed_iff {es fs : List Entry} : WellFormed es fs ↔
    IsOrderly es ∧ (∀ e ∈ fs, e.op ≠ .begin) ∧ ∀ e ∈ openIn es, e.tx ∉ fs.map Entry.tx := by
  have hended : ∀ op : Log.Op, op = .commit ∨ op = .rollback ↔ op ≠ .begin := by
    intro op
    cases op <;> decide
  constructor
  · intro h
    have horderly := lives_iff.mp h.lives
    refine ⟨horderly, fun e he => (hended e.op).mp (h.ended e he), fun e he => ?_⟩
    refine h.unretired e.tx ((Log.stepsOf_eq_begin_iff (Log.isOrderly_iff.mp horderly _)).mpr ?_)
    exact List.mem_map_of_mem he
  · rintro ⟨horderly, hterminal, hopen⟩
    refine ⟨lives_iff.mpr horderly, fun e he => (hended e.op).mpr (hterminal e he), ?_⟩
    intro t ht
    obtain ⟨e, he, rfl⟩ := List.mem_map.mp
      ((Log.stepsOf_eq_begin_iff (Log.isOrderly_iff.mp horderly _)).mp ht)
    exact hopen e he

/-- The log of the retired is accepted only if nothing begins in it. -/
theorem ended_of_retiredTransactions {path : String} {rs : List Record} {txs : List String}
    (h : retiredTransactions path rs = .ok txs) : ∀ e ∈ rs.map Record.entry, e.op ≠ .begin := by
  induction rs generalizing txs with
  | nil => simp
  | cons r rest ih =>
    rw [retiredTransactions] at h
    split at h
    · next hterminal =>
      split at h
      · cases h
      · next txs' hrest =>
        exact List.forall_mem_cons.mpr ⟨Log.isTerminal_iff.mp hterminal, ih hrest⟩
    · cases h

theorem retiredTransactions_error {path : String} {rs : List Record} {f : Fault}
    (h : retiredTransactions path rs = .error f) :
    ∃ offset reason raw, f = .logCorrupt path offset reason raw := by
  induction rs with
  | nil => cases h
  | cons r rest ih =>
    rw [retiredTransactions] at h
    split at h
    · split at h
      · next g hg =>
        obtain rfl := Except.error.inj h
        exact ih hg
      · cases h
    · exact ⟨_, _, _, (Except.error.inj h).symm⟩

section

variable {txs : List String}

/-- There is a plan only for an orderly log, none of whose open transactions is retired. -/
theorem orderly_of_planFor {p : Plan} (h : planFor dir s txs log = .ok p) :
    IsOrderly (log.map Record.entry) ∧
      ∀ e ∈ openIn (log.map Record.entry), e.tx ∉ txs := by
  unfold planFor at h
  split at h
  · exact absurd h nofun
  · next hist hadd =>
    have htells : hist.Tells txs (log.map Record.entry) := by
      simpa using (History.tells_empty txs).addAll hadd
    split at h
    · exact absurd h nofun
    · next hnone =>
      refine ⟨(History.tells_empty txs).orderlyAfter hadd, fun e he hmem => ?_⟩
      rw [← htells.begun] at he
      exact List.find?_eq_none.mp hnone e he (List.contains_iff_mem.mpr hmem)

/-- The record in the state is not that of an open transaction. -/
theorem ne_of_undo (hundo : ∀ u, s.undo = some u → stepsOf u.tx (log.map Record.entry) ≠ [.begin])
    (horderly : IsOrderly (log.map Record.entry)) {u : Undo} (hu : s.undo = some u) {e : Entry}
    (he : e ∈ openIn (log.map Record.entry)) : e.tx ≠ u.tx := by
  intro heq
  refine hundo u hu ?_
  rw [Log.stepsOf_eq_begin_iff (Log.isOrderly_iff.mp horderly _), ← heq]
  exact List.mem_map_of_mem he

/-- The log is to blame if there is no plan, unless the state has the record of an open
transaction. -/
theorem planFor_error {f : Fault} (h : planFor dir s txs log = .error f)
    (hundo : ∀ u, s.undo = some u → stepsOf u.tx (log.map Record.entry) ≠ [.begin]) :
    ∃ offset reason raw, f = .logCorrupt (pathOf dir logName) offset reason raw := by
  unfold planFor at h
  split at h
  · next g hg =>
    obtain rfl := Except.error.inj h
    obtain ⟨before, r, after, reason, -, -, -, rfl⟩ := History.addAll_error hg
    exact ⟨_, _, _, rfl⟩
  · next hist hadd =>
    have htells : hist.Tells txs (log.map Record.entry) := by
      simpa using (History.tells_empty txs).addAll hadd
    have horderly : IsOrderly (log.map Record.entry) :=
      (History.tells_empty txs).orderlyAfter hadd
    split at h
    · exact ⟨_, _, _, (Except.error.inj h).symm⟩
    · obtain ⟨o, ho⟩ : ∃ o, findUndo dir s hist.begun = .ok o :=
        exists_findUndo fun u hu e he heq =>
          absurd heq (ne_of_undo hundo horderly hu (htells.begun ▸ he))
      rw [ho] at h
      exact absurd h nofun

end

/-- Only well-formed histories are accepted. -/
theorem wellFormed_of_judge {p : Plan} (h : judge dir s log retired = .ok p) :
    WellFormed (log.map Record.entry) (retired.map Record.entry) := by
  unfold judge at h
  split at h
  · exact absurd h nofun
  · next txs htxs =>
    obtain ⟨horderly, hopen⟩ := orderly_of_planFor h
    have hmap : txs = (retired.map Record.entry).map Entry.tx := by
      rw [retiredTransactions_eq htxs, List.map_map]
      rfl
    exact wellFormed_iff.mpr ⟨horderly, ended_of_retiredTransactions htxs, hmap ▸ hopen⟩

section

variable (hundo : ∀ u, s.undo = some u → stepsOf u.tx (log.map Record.entry) ≠ [.begin])
include hundo

/-- Well-formed histories are accepted. -/
theorem exists_judge (h : WellFormed (log.map Record.entry) (retired.map Record.entry)) :
    ∃ p, judge dir s log retired = .ok p := by
  obtain ⟨horderly, hended, hopen⟩ := wellFormed_iff.mp h
  obtain ⟨txs, htxs⟩ : ∃ txs, retiredTransactions (pathOf dir retiredName) retired = .ok txs :=
    exists_retiredTransactions fun r hr => hended r.entry (List.mem_map_of_mem hr)
  have hmap : txs = (retired.map Record.entry).map Entry.tx := by
    rw [retiredTransactions_eq htxs, List.map_map]
    rfl
  unfold judge
  rw [htxs]
  exact exists_planFor horderly (hmap ▸ hopen) fun u hu e he heq =>
    absurd heq (ne_of_undo hundo horderly hu he)

theorem judge_error {f : Fault} (h : judge dir s log retired = .error f) :
    ∃ path offset reason raw, f = .logCorrupt path offset reason raw := by
  unfold judge at h
  split at h
  · next g hg => exact ⟨_, Except.error.inj h ▸ retiredTransactions_error hg⟩
  · exact ⟨_, planFor_error h hundo⟩

end

/-- If nothing is wrong with the log of the retired, what is refused is the first record with which
the log stops being orderly. -/
theorem judge_not_orderly (dir : String) (s : State)
    (hended : ∀ e ∈ retired.map Record.entry, e.op ≠ .begin)
    (hlog : ¬ IsOrderly (log.map Record.entry)) :
    ∃ before r after reason, log = before ++ r :: after ∧ IsOrderly (before.map Record.entry) ∧
      ¬ IsOrderly ((before ++ [r]).map Record.entry) ∧
        judge dir s log retired =
          .error (.logCorrupt (pathOf dir logName) r.offset reason r.raw) := by
  obtain ⟨txs, htxs⟩ : ∃ txs, retiredTransactions (pathOf dir retiredName) retired = .ok txs :=
    exists_retiredTransactions fun r hr => hended r.entry (List.mem_map_of_mem hr)
  unfold judge
  rw [htxs]
  dsimp only
  unfold planFor
  cases hadd : History.empty.addAll (pathOf dir logName) txs log with
  | ok hist => exact absurd ((History.tells_empty txs).orderlyAfter hadd) hlog
  | error f =>
    obtain ⟨before, r, after, reason, hsplit, horderly, hnot, rfl⟩ := History.addAll_error hadd
    exact ⟨before, r, after, reason, hsplit, horderly, hnot, rfl⟩

/-! ## What recovery answers -/

/-- Where the checks find a fault, recovery answers with it and leaves everything as it is. -/
theorem Holds.run_recover (h : Holds dir d s log retired) {f : Fault}
    (hjudge : judge dir s log retired = .error f) (threshold : Nat) (host : Host) :
    (recover dir threshold host).run.run d = (.error f, d) := by
  obtain ⟨c, hexamine⟩ := h.run_examine
  rw [hjudge] at hexamine
  exact Job.run_bind_error hexamine

/-- Recovery accepts exactly the well-formed histories: then all its checks pass, and it fails, if
at all, because of a file operation. Other histories are a corrupt log to it. If those in the log of
the retired have all ended, it names the first record of the log with which the steps of a
transaction are not the start of a life. -/
theorem recover_iff_wellFormed (h : Holds dir d s log retired)
    (hundo : ∀ u, s.undo = some u → stepsOf u.tx (log.map Record.entry) ≠ [.begin]) :
    ((∃ c, (examine dir).run.run d = (.ok c, d)) ↔
        WellFormed (log.map Record.entry) (retired.map Record.entry)) ∧
      (WellFormed (log.map Record.entry) (retired.map Record.entry) →
        ∀ threshold host f d', (recover dir threshold host).run.run d = (.error f, d') →
          f.isFatal = false) ∧
      (¬ WellFormed (log.map Record.entry) (retired.map Record.entry) →
        ∃ path offset reason raw, ∀ threshold host, (recover dir threshold host).run.run d =
          (.error (.logCorrupt path offset reason raw), d)) ∧
      ((∀ e ∈ retired.map Record.entry, e.op = .commit ∨ e.op = .rollback) →
        ¬ (∀ t ∈ (log.map Record.entry).map Entry.tx,
          IsLife (stepsOf t (log.map Record.entry))) →
        ∃ before r after reason, log = before ++ r :: after ∧
          (∀ t, IsStart (stepsOf t (before.map Record.entry))) ∧
          (∃ t, ¬ IsStart (stepsOf t ((before ++ [r]).map Record.entry))) ∧
          ∀ threshold host, (recover dir threshold host).run.run d =
            (.error (.logCorrupt (pathOf dir logName) r.offset reason r.raw), d)) := by
  obtain ⟨c, hexamine⟩ := h.run_examine
  have haccepted : WellFormed (log.map Record.entry) (retired.map Record.entry) →
      ∃ cp, (examine dir).run.run d = (.ok cp, d) := by
    intro hwell
    obtain ⟨p, hp⟩ := exists_judge hundo hwell
    exact ⟨(c, p), by rw [hexamine, hp]; rfl⟩
  refine ⟨⟨?_, haccepted⟩, fun hwell threshold host f d' hrun => ?_, fun hnot => ?_,
    fun hended hlog => ?_⟩
  · rintro ⟨cp, hok⟩
    cases hjudge : judge dir s log retired with
    | ok p => exact wellFormed_of_judge hjudge
    | error f =>
      rw [hexamine, hjudge] at hok
      exact absurd (Prod.mk.inj hok).1 nofun
  · obtain ⟨cp, hok⟩ := haccepted hwell
    by_contra hfatal
    have herror := examine_of_fatal hrun (by simpa using hfatal)
    exact absurd (Prod.mk.inj (hok.symm.trans herror)).1 nofun
  · cases hjudge : judge dir s log retired with
    | ok p => exact absurd (wellFormed_of_judge hjudge) hnot
    | error f =>
      obtain ⟨path, offset, reason, raw, rfl⟩ := judge_error hundo hjudge
      exact ⟨path, offset, reason, raw, h.run_recover hjudge⟩
  · have hterminal : ∀ e ∈ retired.map Record.entry, e.op ≠ .begin := by
      intro e he hop
      rcases hended e he with hcommit | hrollback
      · exact absurd (hop.symm.trans hcommit) nofun
      · exact absurd (hop.symm.trans hrollback) nofun
    obtain ⟨before, r, after, reason, hsplit, horderly, hnot, hjudge⟩ :=
      judge_not_orderly dir s hterminal fun horderly => hlog (lives_iff.mpr horderly)
    refine ⟨before, r, after, reason, hsplit, Log.isOrderly_iff.mp horderly, ?_,
      h.run_recover hjudge⟩
    rw [Log.isOrderly_iff] at hnot
    exact not_forall.mp hnot

/-- Entries of two transactions, mixed, the first of which ends twice. -/
def twiceEnded : List Entry :=
  [⟨.begin, "t1", "", 0⟩, ⟨.begin, "t2", "", 0⟩, ⟨.commit, "t1", "", 0⟩,
    ⟨.rollback, "t1", "", 0⟩, ⟨.commit, "t2", "", 0⟩]

/-- Recovery refuses them, and says where the second end is. -/
theorem recover_twiceEnded : ∃ before r after reason,
    Log.recordsFrom 0 twiceEnded = before ++ r :: after ∧
      (∀ t, IsStart (stepsOf t (before.map Record.entry))) ∧
      (∃ t, ¬ IsStart (stepsOf t ((before ++ [r]).map Record.entry))) ∧
      ∀ threshold host, (recover "data" threshold host).run.run (litteredDisk twiceEnded) =
        (.error (.logCorrupt "data/wal.log" r.offset reason r.raw), litteredDisk twiceEnded) := by
  have hsound : ∀ e ∈ twiceEnded, e.IsSound := by
    have hshort : ∀ e ∈ twiceEnded, e.tx ≠ "" ∧ e.tx.utf8ByteSize ≤ 128 ∧
        e.payloadHash.utf8ByteSize ≤ 256 := by decide
    exact fun e he => ⟨(hshort e he).1, (hshort e he).2.1, (hshort e he).2.2⟩
  refine (recover_iff_wellFormed (holds_litteredDisk hsound) nofun).2.2.2 nofun fun hlives => ?_
  rw [Log.map_entry_recordsFrom] at hlives
  have hlife : IsLife (stepsOf "t1" twiceEnded) := hlives "t1" (by decide)
  have hsteps : stepsOf "t1" twiceEnded = [.begin, .commit, .rollback] := by decide
  rw [hsteps] at hlife
  rcases hlife with h | h | h <;> exact absurd h nofun

end LedgerGate.Ledger

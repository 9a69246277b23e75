import LedgerGate.Proofs.Ledger.Acceptance

/-!
# Identifiers are used once

An identifier is used as soon as the line of its beginning is complete in the log. Since then it
is in one of the logs (`Known`), through all recoveries and compactions and wherever these are
stopped, and the layer that is open refuses it (`Ledger.refused_of_begun`).
-/

namespace LedgerGate

/-- A commit under an identifier that has been used does nothing. -/
theorem Layer.commit_of_isUsed {l : Layer} {tx : String} (h : l.isUsed tx = true) (c : Consensus)
    (host : Host) (crash : Option CrashPoint) :
    ∃ r, r ≠ .ok .committed ∧ l.commit tx c host crash = pure (l, r) := by
  obtain hnothing | ⟨δ, hadmission, hstale⟩ := l.commit_cases tx c host crash
  · exact hnothing
  · refine ⟨.error (.invalidTransition tx "transaction id already used"), nofun, ?_⟩
    rw [commit_of_admission hadmission hstale, beginAndApply, logStep, refuseStep, if_pos ⟨rfl, h⟩]
    rfl

namespace Ledger

open Log (Entry openIn)

/-! ## Identifiers that were seen -/

/-- The identifiers of the transactions that entries begin. -/
def begunIn (es : List Entry) : Set String := { t | ∃ e ∈ es, e.op = .begin ∧ e.tx = t }

/-- The identifiers that have begun after a look at entries. -/
def noteBegun (B : Set String) (es : List Entry) : Set String := B ∪ begunIn es

/-- Whether the identifiers in files are those that have begun. -/
def Known (B : Set String) (F : Files) : Prop := ∀ t, t ∈ B ↔ t ∈ F.ids

theorem begunIn_subset_ids (F : Files) : ∀ t ∈ begunIn F.log, t ∈ F.ids := by
  rintro t ⟨e, he, -, rfl⟩
  exact Files.mem_ids.mpr (.inl (List.mem_map_of_mem he))

/-- A commit adds no identifier but by its beginning. -/
theorem Files.Change.mem_ids_iff {F F' : Files} {δ : Delta} (h : F.Change δ F') {t : String} :
    t ∈ F'.ids ↔ t ∈ F.ids ∨ t ∈ begunIn F'.log := by
  constructor
  · intro ht
    cases h with
    | apply => exact .inl ht
    | @begin e _ hop =>
      rw [Files.mem_ids, List.map_append, List.mem_append, List.map_singleton, List.mem_singleton,
        or_right_comm, ← Files.mem_ids] at ht
      exact ht.imp_right fun heq => ⟨e, by simp, hop, heq.symm⟩
    | @commit e _ _ _ _ _ hopen =>
      rw [Files.mem_ids, List.map_append, List.mem_append, List.map_singleton, List.mem_singleton,
        or_right_comm, ← Files.mem_ids] at ht
      refine .inl (ht.elim id ?_)
      rintro rfl
      exact Files.mem_ids_iff.mpr (.inl hopen)
  · rintro (ht | ht)
    · exact h.mem_ids ht
    · exact begunIn_subset_ids F' t ht

instance : Noting noteBegun Known where
  look hF := Set.union_eq_self_of_subset_right fun t ht => (hF t).mpr (begunIn_subset_ids _ t ht)

/-- Repairs move identifiers from one log to the other, and begin nothing. -/
instance : Lasting Known where
  repair _ hF hr := fun t => (hF t).trans hr.mem_ids.symm

instance {δ : Delta} : Recording noteBegun Known δ where
  change _ hF hc := fun t => (or_congr_left (hF t)).trans hc.mem_ids_iff.symm

/-- What was seen to begin is what begins in one of the logs that were looked at. -/
theorem mem_foldl_noteBegun {past : List Disk} {B : Set String} {t : String} :
    t ∈ past.foldl (fun B d => noteBegun B (logEntries d)) B ↔
      t ∈ B ∨ ∃ d ∈ past, t ∈ begunIn (logEntries d) := by
  induction past generalizing B with
  | nil => simp
  | cons d rest ih =>
    rw [List.foldl_cons, ih, noteBegun, Set.mem_union, or_assoc]
    simp

/-! ## Identifiers that are refused -/

variable {dir : String} {b : Balances} {start : Disk} {past : List Disk} {w : World}

/-- The identifiers that a layer refuses are those that were ever begun in the log. -/
theorem Story.isUsed_iff (hS : Story dir b start past w) {l : Layer} (hl : w.layer = some l)
    {t : String} : l.isUsed t = true ↔ ∃ d ∈ past, t ∈ begunIn (logEntries d) := by
  have hupholds : Upholds Known
      (past.foldl (fun B d => noteBegun B (logEntries d)) ∅) w.disk w.layer :=
    hS.upholds fun s _ t => by simp [Files.founded, Files.ids]
  obtain ⟨i, F, -, hF, hmir, -⟩ := hupholds.layer l hl
  rw [hmir.isUsed_iff, ← hF.fits t, mem_foldl_noteBegun, or_iff_right (Set.notMem_empty t)]

theorem Story.isUsed (hS : Story dir b start past w) {d : Disk} (hd : d ∈ past) {t : String}
    (ht : t ∈ begunIn (logEntries d)) {l : Layer} (hl : w.layer = some l) : l.isUsed t = true :=
  (hS.isUsed_iff hl).mpr ⟨d, hd, ht⟩

/-- Once a complete line that begins a transaction was in the log, at any moment of a run, no
layer that is open later commits anything under its identifier: whatever decision it is given,
and wherever it is to be interrupted, it does not say that it is committed, it does nothing to
any file, and it stays as it is. -/
theorem refused_of_begun (hS : Story dir b start past w) {d : Disk} (hd : d ∈ past) {e : Entry}
    (he : e ∈ logEntries d) (hop : e.op = .begin) {l : Layer} (hl : w.layer = some l)
    (c : Consensus) (host : Host) (crash : Option CrashPoint) :
    ∃ r, r ≠ .ok .committed ∧ l.commit e.tx c host crash = pure (l, r) :=
  l.commit_of_isUsed (hS.isUsed hd ⟨e, he, hop, rfl⟩ hl) c host crash

/-- The gift was interrupted and is rolled back, and its identifier is still used. -/
theorem refused_of_begun_giftInterrupted : ∃ past w l report e,
    Story "data" twoBalances .empty past w ∧ w.acknowledged = ["t0"] ∧
    (∃ b ∈ logEntries w.disk, b.op = .begin ∧ b.tx = "t1") ∧
    (recover "data" 8 ticking).run.run w.disk = (.ok (l, report), e) ∧ report.reverted = ["t1"] ∧
    ∀ c host crash, ∃ r, r ≠ .ok .committed ∧ l.commit "t1" c host crash = pure (l, r) := by
  obtain ⟨past₀, w₀, l₀, l', d, h⟩ := exists_giftInterrupted
  obtain ⟨past, w, hS, rfl, -, hacknowledged, -⟩ := h.exists_story
  obtain ⟨⟨l, report⟩, e, hrun⟩ := hS.exists_recover h.load (fun _ _ _ => nofun) 8 ticking
  obtain ⟨ds, he⟩ := Execution.exists_of_run hrun
  obtain ⟨i, F, hint, hs, hF, hmir, -⟩ := h.left
  have hopen : openIn (logEntries w.disk) = [⟨.begin, "t1", payloadHash "t1" "gift" gift, 0⟩] := by
    rw [hs.logEntries hF, ← hmir.begun, hint.begun]
  obtain ⟨hmem, -⟩ := Log.mem_openIn.mp (hopen.symm ▸ List.mem_singleton_self _)
  exact ⟨past, w, l, report, e, hS, hacknowledged, ⟨_, hmem, rfl, rfl⟩, hrun,
    (h.recovered hrun).2.2, fun c host crash =>
      refused_of_begun (hS.recover 8 ticking he) (List.mem_append_left ds hS.disk_mem) hmem rfl rfl
        c host crash⟩

end Ledger
end LedgerGate

import LedgerGate.Proofs.Ledger.Acceptance

/-!
# Runs are atomic

What a recovery after any run finds is told by the transactions whose end was ever a complete line
of the log (`Ledger.recover_of_run`): each of them is there as a whole, and nothing is there of the
others. The total of all balances never changes, also between a stop and the recovery after it
(`Ledger.total_of_run`).
-/

namespace LedgerGate.Ledger

open Log (Entry openIn)

variable {dir : String} {b : Balances} {w : World}

/-! ## What recovery finds -/

/-- After any run, a recovery that succeeds gives the ledger of exactly the transactions whose
end was ever a complete line of the log, each once and in this order: every account has what
the last of them to change it wrote, and else what it was founded with. Each transaction that
was said to be committed is among them. Nothing is open after it, no temporary file is left,
and the transactions that were open in the log are reported in their order. -/
theorem recover_of_run {threshold : Nat} {host : Host} {l : Layer} {report : Recovery.Report}
    {d : Disk} (hr : Run dir b w)
    (hrec : (recover dir threshold host).run.run w.disk = (.ok (l, report), d)) :
    (∀ account, l.balances.get? account =
        w.commits.balance? (b.map Decimal.normalize) account) ∧
      l.state.version = w.commits.length ∧ l.state.lastTx = w.commits.ids.getLast? ∧
      w.commits.ids.Nodup ∧ (∀ tx ∈ w.acknowledged, tx ∈ w.commits.ids) ∧
      l.openTransactions = [] ∧ openIn (logEntries d) = [] ∧
      (∀ name ∈ d.names, isTempName name = false) ∧
      report.discarded = (openIn (logEntries w.disk)).map Entry.tx := by
  have hw := hr.sound
  obtain ⟨ds, he⟩ := Execution.of_run (recover dir threshold host).run w.disk
  rw [hrec] at he
  have hdone := (he.keeps hw.consistent
    (Recovery.safely_recover (δ := .empty) hw.consistent)).2 _ rfl
  have hstands := hdone.standsFor
  rw [hdone.commits] at hstands
  obtain ⟨hreflects, hnodup, hbegun, hopen⟩ := reflects_of_standsFor hstands hdone.serves
  exact ⟨l.agreed.symm ▸ hreflects.balances, hreflects.version, hreflects.lastTx, hnodup,
    hw.acknowledged, by rw [Layer.openTransactions, hbegun]; rfl, hopen, hdone.noTemps,
    hdone.discarded⟩

/-- A payment was committed, and a gift after it was interrupted with its state in the state file.
Recovery finds the payment, and nothing of the gift. -/
theorem recover_of_run_giftInterrupted : ∃ w l report d, Run "data" twoBalances w ∧
    w.commits = [("t0", payment)] ∧ w.acknowledged = ["t0"] ∧
    (openIn (logEntries w.disk)).map Entry.tx = ["t1"] ∧
    (recover "data" 8 ticking).run.run w.disk = (.ok (l, report), d) ∧
    (∀ account, l.balances.get? account = paidBalances.get? account) ∧
    l.state.version = 1 ∧ l.state.lastTx = some "t0" ∧ l.openTransactions = [] ∧
    openIn (logEntries d) = [] ∧ (∀ name ∈ d.names, isTempName name = false) ∧
    report.discarded = ["t1"] := by
  obtain ⟨past, w₀, l₀, l', d₀, h⟩ := exists_giftInterrupted
  obtain ⟨past', w, hS, rfl, -, hacknowledged, added, hadded⟩ := h.exists_story
  obtain ⟨⟨l, report⟩, d, hrec⟩ := hS.exists_recover h.load (fun _ _ _ => nofun) 8 ticking
  obtain ⟨hbalances, hversion, hlast, -, -, hbegun, hopen, htemps, hdiscarded⟩ :=
    recover_of_run hS.run hrec
  obtain ⟨hstate, hreported, -⟩ := h.recovered hrec
  have hone : l.state.version = 1 := by rw [hstate]; exact h.version
  have hcommits : w.commits = [("t0", payment)] := by
    rw [← hadded, h.commits] at hversion ⊢
    rw [hone, List.length_append, List.length_singleton] at hversion
    rw [List.eq_nil_of_length_eq_zero (by omega : added.length = 0), List.append_nil]
  rw [hcommits] at hbalances hlast
  refine ⟨w, l, report, d, hS.run, hcommits, hacknowledged, hdiscarded.symm.trans hreported, hrec,
    fun account => ?_, hone, hlast, hbegun, hopen, htemps, hreported⟩
  rw [hbalances account, paidBalances,
    State.get?_writeChanges (Table.pairwise_ne payment.changes.sorted)]
  exact Commits.balance?_concat _ [] "t0" payment account

/-! ## What never changes -/

/-- Whether balances are none of them negative and have the total of others. -/
def Preserves (b b' : Balances) : Prop := (∀ d ∈ b'.values, 0 ≤ d.value) ∧ b'.total = b.total

theorem preserves_of_sumTo {b' : Balances}
    (h : b'.SumTo (Balances.total (b.map Decimal.normalize))) : Preserves b b' :=
  ⟨fun d hd => Decimal.value_nonneg_iff.mpr (h.nonneg d hd),
    h.total_eq.trans (Balances.total_normalize b)⟩

/-- After any run, no balance is negative and all add up to what the ledger was founded with,
in the state file as well as in the layer that is open. The state file is that of a state, and
read as any other. -/
theorem total_of_run (hr : Run dir b w) :
    (∃ s : State, w.disk.content? stateName = some s.bytes ∧ Preserves b s.balances ∧
      ∀ t, State.ofBytes? s.bytes = some t → t = s) ∧
      ∀ l, w.layer = some l → Preserves b l.balances := by
  have hw := hr.sound
  refine ⟨?_, fun l hl => ?_⟩
  · obtain ⟨i, F, hs, hF⟩ := hw.consistent
    obtain ⟨j, hj⟩ := hs.state
    exact ⟨F.state, content?_of_get? hj, preserves_of_sumTo hF.genuine.sumTo,
      fun t ht => State.eq_of_ofBytes? hF.genuine.storable ht⟩
  · obtain ⟨i, F, -, hF, hmir, -⟩ := hw.layer l hl
    rw [l.agreed, hmir.state]
    exact preserves_of_sumTo hF.genuine.sumTo

/-- While the gift is in the state file and the transaction is open, the layer and the file have the
total that the ledger was founded with. -/
theorem total_of_run_giftInterrupted : ∃ w l s, Run "data" twoBalances w ∧ w.acknowledged = ["t0"] ∧
    w.layer = some l ∧ l.openTransactions = ["t1"] ∧
    l.balances.get? "carol" = some (.ofInt64 40) ∧ Preserves twoBalances l.balances ∧
    w.disk.content? stateName = some s.bytes ∧ Preserves twoBalances s.balances ∧
    ∀ t, State.ofBytes? s.bytes = some t → t = s := by
  obtain ⟨past, w₀, l₀, l, d, h⟩ := exists_giftInterrupted
  obtain ⟨past', w, hS, -, hl, hacknowledged, -⟩ := h.exists_story
  obtain ⟨⟨s, hfile, hstate, hread⟩, hlayer⟩ := total_of_run hS.run
  obtain ⟨i, F, hint, -⟩ := h.left
  have hcarol : l.balances.get? "carol" = some (.ofInt64 40) := by
    rw [h.given]
    decide
  exact ⟨w, l, s, hS.run, hacknowledged, hl, congrArg (List.map Entry.tx) hint.begun, hcarol,
    hlayer l hl, hfile, hstate, hread⟩

end LedgerGate.Ledger

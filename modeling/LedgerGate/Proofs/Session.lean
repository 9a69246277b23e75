import LedgerGate.Proofs.Execution
import LedgerGate.Proofs.Guards

/-!
# Sessions

While a ledger is served, intents are verified, and their decisions are committed later and in
any order, perhaps after the ledger was compacted or opened again. A decision is the one on the
balances that there were at its verification (`Session.Run.decided`). When it is committed, a
guard that reads the ledger is still true if each account that it reads is assigned by the intent,
whose balance the commit compares, or has the balance of the verification
(`Session.guard_of_committed`). Nothing compares the balances that a guard only reads.
-/

namespace LedgerGate

/-- A decision with what it was made on. -/
structure Verified where
  intent : Intent
  judge : Judge
  balances : Balances
  decision : Consensus

/-- Whether a decision is that of its judge, whatever happened to the verifiers. -/
def Verified.IsDecided (e : Verified) : Prop :=
  ∃ course, e.decision = (e.judge.decide course e.intent e.balances).1

/-- A ledger with what has been decided on it. -/
structure Session where
  disk : Disk
  /-- The ledger as it is open, if it is. -/
  service : Option Service
  verified : List Verified

namespace Session

/-- The decision of a verification that came to its end. -/
def decisionOn (s : Service) (i : Intent) : Option (Service × Consensus) → List Verified
  | some (_, c) => [⟨i, s.judge, s.layer.balances, c⟩]
  | none => []

/-- The ledger that a compaction leaves open. -/
def compactedService (s : Service) : Option (Except Fault (Layer × Nat)) → Option Service
  | some (.ok (l, _)) => some { s with layer := l }
  | some (.error _) => some s
  | none => none

/-- The ledger that a recovery opens. -/
def recoveredService : Option (Except Fault (Service × Recovery.Report)) → Option Service
  | some (.ok (s, _)) => some s
  | _ => none

/-- One call, which may be stopped. Any decision so far may be committed. -/
inductive Step : Session → Session → Prop
  | recover {w : Session} {ds : List Disk} {d : Disk}
    {r : Option (Except Fault (Service × Recovery.Report))} (config : Config) (sink : Sink)
    (host : Host) :
    Execution (Service.recover config sink host).run w.disk ds d r →
    Step w { w with disk := d, service := recoveredService r }
  | verify {w : Session} {s : Service} {ds : List Disk} {d : Disk}
    {r : Option (Service × Consensus)} (i : Intent) (host : Host) :
    w.service = some s → Execution (s.verify i host) w.disk ds d r →
    Step w ⟨d, r.map Prod.fst, w.verified ++ decisionOn s i r⟩
  | commit {w : Session} {s : Service} {e : Verified} {ds : List Disk} {d : Disk}
    {r : Option (Service × Except Fault Outcome)} (tx : String) (host : Host)
    (crash : Option CrashPoint) :
    w.service = some s → e ∈ w.verified →
    Execution (s.commit tx e.decision host crash) w.disk ds d r →
    Step w { w with disk := d, service := r.map Prod.fst }
  | compact {w : Session} {s : Service} {ds : List Disk} {d : Disk}
    {r : Option (Except Fault (Layer × Nat))} :
    w.service = some s → Execution s.layer.compact.run w.disk ds d r →
    Step w { w with disk := d, service := compactedService s r }

/-- The sessions that start on a disk. -/
inductive Run (start : Disk) : Session → Prop
  | start : Run start ⟨start, none, []⟩
  | step {w w' : Session} : Run start w → Step w w' → Run start w'

/-! ## Calls that come to their end -/

section

variable {start d d' : Disk} {s s' : Service} {es : List Verified} {host : Host}

theorem Run.recover {config : Config} {sink : Sink} {report : Recovery.Report}
    {o : Option Service} (hr : Run start ⟨d, o, es⟩)
    (h : (Service.recover config sink host).run.run d = (.ok (s, report), d')) :
    Run start ⟨d', some s, es⟩ := by
  obtain ⟨ds, he⟩ := Execution.exists_of_run h
  exact hr.step (Step.recover (w := ⟨d, o, es⟩) config sink host he)

theorem Run.verify {i : Intent} {c : Consensus} (hr : Run start ⟨d, some s, es⟩)
    (h : (s.verify i host).run d = ((s', c), d')) :
    Run start ⟨d', some s', es ++ [⟨i, s.judge, s.layer.balances, c⟩]⟩ := by
  obtain ⟨ds, he⟩ := Execution.exists_of_run h
  exact hr.step (Step.verify (w := ⟨d, some s, es⟩) i host rfl he)

theorem Run.commit {tx : String} {crash : Option CrashPoint} {e : Verified}
    {r : Except Fault Outcome} (hr : Run start ⟨d, some s, es⟩) (hmem : e ∈ es)
    (h : (s.commit tx e.decision host crash).run d = ((s', r), d')) :
    Run start ⟨d', some s', es⟩ := by
  obtain ⟨ds, he⟩ := Execution.exists_of_run h
  exact hr.step (Step.commit (w := ⟨d, some s, es⟩) tx host crash rfl hmem he)

end

/-! ## What has been decided -/

theorem isDecided_of_mem_decisionOn {s : Service} {i : Intent} {host : Host} {d d' : Disk}
    {ds : List Disk} {r : Option (Service × Consensus)} (he : Execution (s.verify i host) d ds d' r)
    {e : Verified} (hmem : e ∈ decisionOn s i r) : e.IsDecided := by
  cases r with
  | none => exact absurd hmem List.not_mem_nil
  | some p =>
    obtain rfl := List.mem_singleton.mp hmem
    obtain ⟨-, hdecision⟩ := Service.returns_verify s i host d
    rw [he.run_eq] at hdecision
    exact ⟨host.course, hdecision⟩

/-- A call adds no decision but that of the judge on the current balances. -/
theorem Step.decided {w w' : Session} (hs : Step w w') (hw : ∀ e ∈ w.verified, e.IsDecided) :
    ∀ e ∈ w'.verified, e.IsDecided := by
  cases hs with
  | recover config sink host he => exact hw
  | verify i host hs he =>
    intro e hmem
    rcases List.mem_append.mp hmem with hold | hnew
    · exact hw e hold
    · exact isDecided_of_mem_decisionOn he hnew
  | commit tx host crash hs hmem he => exact hw
  | compact hs he => exact hw

/-- All decisions of a session are those of their judges on the balances of their time. -/
theorem Run.decided {start : Disk} {w : Session} (hr : Run start w) :
    ∀ e ∈ w.verified, e.IsDecided := by
  induction hr with
  | start => exact fun e he => absurd he List.not_mem_nil
  | step _ hs ih => exact hs.decided ih

end Session

/-! ## What a commit compares -/

/-- What a predicate says depends only on the balances of the accounts that it reads. -/
theorem Predicate.holds_asValues_congr {p : Predicate} {precision : Nat} {b b' : Balances}
    {others : Values}
    (h : ∀ name ∈ p.occurrences, ∀ account, BalanceName.beforeAccount? name = some account →
      (b.of account).value = (b'.of account).value) :
    p.Holds precision (b.asValues others) ↔ p.Holds precision (b'.asValues others) := by
  apply Predicate.holds_congr
  intro name hname
  cases hbefore : BalanceName.beforeAccount? name with
  | none => rw [Balances.asValues_other hbefore, Balances.asValues_other hbefore]
  | some account =>
    rw [Balances.asValues_before hbefore, Balances.asValues_before hbefore]
    exact h name hname account hbefore

/-- Where the delta of a decision is not stale, an account that the intent assigns has the
balance that it was decided on. -/
theorem Layer.value_of_fresh {l : Layer} {j : Judge} {i : Intent} {b : Balances} {δ : Delta}
    {account : String} {term : Expr} (hderive : Conservation.derive i b j.precision = .ok δ)
    (hfresh : l.isStale δ = false) (hassigned : (account, term) ∈ i.assignments) :
    (l.balances.of account).value = (b.of account).value := by
  obtain ⟨bindings, -, hassign⟩ := Conservation.derive_ok hderive
  obtain ⟨after, -, hchange⟩ := hassign _ hassigned
  have hentry : (account, (⟨b.of account, after⟩ : Change)) ∈ δ.changes.entries :=
    Table.get?_eq_some_iff.mp hchange
  have hnot : ¬ l.isStale δ = true := Bool.not_eq_true _ ▸ hfresh
  exact Decimal.value_eq_of_sameValue (sameValue_of_not_stale hnot _ hentry)

/-- What is said to be committed was approved, and its delta was not stale and has been written. -/
theorem Service.exists_of_committed {s s' : Service} {tx : String} {c : Consensus} {host : Host}
    {crash : Option CrashPoint} {d d' : Disk}
    (h : (s.commit tx c host crash).run d = ((s', .ok .committed), d')) :
    ∃ δ, c.approved = true ∧ c.delta = some δ ∧ s.layer.isStale δ = false ∧
      s'.layer.balances = State.writeChanges s.layer.balances δ.changes.entries := by
  have hreturns : (s.commit tx c host crash).Returns fun r => r.2 = .ok .committed →
      ∃ δ, c.approved = true ∧ c.delta = some δ ∧ s.layer.isStale δ = false ∧
        r.1.layer.balances = State.writeChanges s.layer.balances δ.changes.entries :=
    Program.Returns.bind (Layer.returns_commit tx c host crash) fun _ hr => Program.returns_pure hr
  have hcommitted := hreturns d
  rw [h] at hcommitted
  exact hcommitted rfl

namespace Session

/-- When a decision of a session is committed, a guard of its intent that reads the ledger is true
of the balances just before, if each account that it reads is assigned by the intent or has the
balance that the intent was verified on. -/
theorem guard_of_committed {start d d' : Disk} {s s' : Service} {es : List Verified}
    {e : Verified} {p : Predicate} {tx : String} {host : Host} {crash : Option CrashPoint}
    (hr : Run start ⟨d, some s, es⟩) (he : e ∈ es)
    (hcommit : (s.commit tx e.decision host crash).run d = ((s', .ok .committed), d'))
    (hp : p ∈ e.intent.guard) (hreads : p.ReadsLedger e.intent)
    (hcovered : ∀ name ∈ p.occurrences, ∀ account,
      BalanceName.beforeAccount? name = some account →
      (∃ term, (account, term) ∈ e.intent.assignments) ∨
        (s.layer.balances.of account).value = (e.balances.of account).value) (others : Values) :
    p.Holds e.judge.precision (s.layer.balances.asValues others) := by
  obtain ⟨course, hdecided⟩ := hr.decided e he
  obtain ⟨δ, happroved, hδ, hfresh, -⟩ := Service.exists_of_committed hcommit
  rw [hdecided] at happroved hδ
  obtain ⟨-, δ', hδ', hderive, -⟩ := Judge.decide_approved happroved
  obtain rfl := Option.some.inj (hδ.symm.trans hδ')
  refine (Predicate.holds_asValues_congr ?_).mpr (Judge.holds_of_guard happroved hp hreads others)
  intro name hname account hbefore
  rcases hcovered name hname account hbefore with ⟨term, hassigned⟩ | hsame
  · exact Layer.value_of_fresh hderive hfresh hassigned
  · exact hsame

/-! ## A payment in between -/

open Ledger (foundedDisk twoState)
open Service (twoAccounts usualJudge)

/-- A payment of all that the second account has. -/
def payment : Intent := .ofPredicates "payment"
  [⟨.var "bob.balance", .ge, .lit "20"⟩]
  [⟨.var "bob.balance'", .eq, .sub (.var "bob.balance") (.lit "20")⟩,
    ⟨.var "dave.balance'", .eq, .add (.var "dave.balance") (.lit "20")⟩]

/-- A loan from the first account, on a condition. -/
def loan (condition : Predicate) : Intent := .ofPredicates "loan" [condition]
  [⟨.var "alice.balance'", .eq, .sub (.var "alice.balance") (.lit "50")⟩,
    ⟨.var "carol.balance'", .eq, .add (.var "carol.balance") (.lit "50")⟩]

/-- Whether the lender has what is lent. -/
def lenderHasEnough : Predicate := ⟨.var "alice.balance", .ge, .lit "50"⟩

/-- Whether an account that has no part in the loan has something. -/
def otherHasEnough : Predicate := ⟨.var "bob.balance", .ge, .lit "20"⟩

/-- An intent verified on the two accounts. -/
def verifiedOnTwo (i : Intent) : Verified :=
  ⟨i, usualJudge, twoState.balances, (usualJudge.decide .calm i twoState.balances).1⟩

/-- The balances of the two accounts after the payment. -/
def paidBalances : Balances := State.writeChanges twoState.balances
  [("bob", ⟨.ofInt64 20, .ofInt64 0⟩), ("dave", ⟨.ofInt64 0, .ofInt64 20⟩)]

/-- After another intent was verified, the payment is committed, and one more transaction is
awaited. -/
theorem run_payment (i : Intent) : ∃ d s, Run (foundedDisk twoState)
      ⟨d, some s, [verifiedOnTwo i, verifiedOnTwo payment]⟩ ∧
    s.layer.balances = paidBalances ∧ s.layer.Awaits d ["t2"] := by
  have happroved : (verifiedOnTwo payment).decision.approved = true := by decide +kernel
  have hpaid : ∀ δ ∈ (verifiedOnTwo payment).decision.delta,
      State.writeChanges twoState.balances δ.changes.entries = paidBalances := by
    decide +kernel
  obtain ⟨report, hrecover⟩ := Service.recover_twoAccounts (.still 0)
  have hopened : Run (foundedDisk twoState) ⟨foundedDisk twoState, some twoAccounts, []⟩ :=
    Run.start.recover hrecover
  obtain ⟨events, hverify⟩ := Service.run_verify twoAccounts i (foundedDisk twoState) (.still 1) rfl
  have hone := hopened.verify hverify
  obtain ⟨events', hverify'⟩ := Service.run_verify { twoAccounts with sink := .memory events }
    payment (foundedDisk twoState) (.still 2) rfl
  have hboth : Run (foundedDisk twoState) ⟨foundedDisk twoState,
      some { twoAccounts with sink := .memory events' },
      [verifiedOnTwo i, verifiedOnTwo payment]⟩ := hone.verify hverify'
  obtain ⟨l, d, hcommit, hawaits⟩ := Service.run_commit_of_approved
    (s := { twoAccounts with sink := .memory events' }) (.still 3) happroved
    Service.awaits_twoAccounts fun δ hδ => Service.fresh_of_approved (s := twoAccounts) happroved hδ
  have hmem : verifiedOnTwo payment ∈ [verifiedOnTwo i, verifiedOnTwo payment] :=
    List.mem_cons_of_mem _ List.mem_cons_self
  refine ⟨d, _, hboth.commit hmem hcommit, ?_, hawaits⟩
  · obtain ⟨δ, -, hδ, -, hwritten⟩ := Service.exists_of_committed hcommit
    exact hwritten.trans (hpaid δ hδ)

/-- A loan that was approved before the payment is committed after it, if the payment changes no
balance that the loan changes. -/
theorem run_loan (condition : Predicate)
    (happroved : (verifiedOnTwo (loan condition)).decision.approved = true)
    (hfresh : ∀ δ ∈ (verifiedOnTwo (loan condition)).decision.delta,
      ∀ p ∈ δ.changes.entries, (paidBalances.of p.1).sameValue p.2.before = true) :
    ∃ d s es s' d', Run (foundedDisk twoState) ⟨d, some s, es⟩ ∧
      verifiedOnTwo (loan condition) ∈ es ∧ s.layer.balances = paidBalances ∧
      (s.commit "t2" (verifiedOnTwo (loan condition)).decision (.still 4) none).run d =
        ((s', .ok .committed), d') := by
  obtain ⟨d, s, hrun, hbalances, hawaits⟩ := run_payment (loan condition)
  have hcurrent : ∀ δ, (verifiedOnTwo (loan condition)).decision.delta = some δ →
      s.layer.isStale δ = false := by
    intro δ hδ
    refine List.any_eq_false.mpr fun p hp => ?_
    rw [← s.layer.agreed, hbalances, hfresh δ hδ p hp]
    exact Bool.false_ne_true
  obtain ⟨l, d', hcommit, -⟩ :=
    Service.run_commit_of_approved (.still 4) happroved hawaits hcurrent
  exact ⟨d, s, _, _, d', hrun, List.mem_cons_self, hbalances, hcommit⟩

/-- The lender has enough when the loan is committed, though another account has paid. -/
theorem guard_of_committed_loan : ∃ d s es s' d',
    Run (foundedDisk twoState) ⟨d, some s, es⟩ ∧
    verifiedOnTwo (loan lenderHasEnough) ∈ es ∧
    (s.commit "t2" (verifiedOnTwo (loan lenderHasEnough)).decision (.still 4) none).run d =
      ((s', .ok .committed), d') ∧
    lenderHasEnough ∈ (loan lenderHasEnough).guard ∧
    lenderHasEnough.ReadsLedger (loan lenderHasEnough) ∧
    s.layer.balances ≠ twoState.balances ∧
    lenderHasEnough.Holds 28 (s.layer.balances.asValues 0) := by
  obtain ⟨d, s, es, s', d', hrun, hmem, hbalances, hcommit⟩ :=
    run_loan lenderHasEnough (by decide +kernel) (by decide +kernel)
  have hguard : lenderHasEnough ∈ (loan lenderHasEnough).guard := List.mem_cons_self
  have hreads : lenderHasEnough.ReadsLedger (loan lenderHasEnough) := by
    unfold Predicate.ReadsLedger
    decide
  refine ⟨d, s, es, s', d', hrun, hmem, hcommit, hguard, hreads, ?_, ?_⟩
  · rw [hbalances]
    decide
  · refine guard_of_committed hrun hmem hcommit hguard hreads ?_ 0
    intro name hname account hbefore
    obtain rfl : name = "alice.balance" := List.mem_singleton.mp hname
    obtain rfl : "alice" = account := Option.some.inj hbefore
    exact .inl ⟨.sub (.var "alice.balance") (.lit "50"), by decide⟩

/-- A guard need not be true of the balances that a decision is committed on, where it reads an
account that the intent does not assign and another commit has changed. -/
theorem not_guard_of_committed_loan : ∃ d s es e s' d' p,
    Run (foundedDisk twoState) ⟨d, some s, es⟩ ∧ e ∈ es ∧
    (s.commit "t2" e.decision (.still 4) none).run d = ((s', .ok .committed), d') ∧
    p ∈ e.intent.guard ∧ p.ReadsLedger e.intent ∧
    ¬ p.Holds e.judge.precision (s.layer.balances.asValues 0) := by
  obtain ⟨d, s, es, s', d', hrun, hmem, hbalances, hcommit⟩ :=
    run_loan otherHasEnough (by decide +kernel) (by decide +kernel)
  have hguard : otherHasEnough ∈ (loan otherHasEnough).guard := List.mem_cons_self
  refine ⟨d, s, es, _, s', d', otherHasEnough, hrun, hmem, hcommit, hguard, ?_, ?_⟩
  · unfold Predicate.ReadsLedger
    decide
  · rw [hbalances]
    decide +kernel

end Session
end LedgerGate

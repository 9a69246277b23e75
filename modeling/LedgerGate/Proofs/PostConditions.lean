import LedgerGate.Proofs.Judge
import LedgerGate.Proofs.Ledger.Outcome

/-!
# Post-conditions

What an approved intent says across its transition is true of the ledger that its commit leaves,
as far as the transition decides the balances that it mentions (`Service.holds_of_committed`).
-/

namespace LedgerGate

theorem State.isWrittenIn_writeChanges (b : Balances) (δ : Delta) :
    δ.IsWrittenIn (writeChanges b δ.changes.entries) := by
  intro account c h
  have hget : (writeChanges b δ.changes.entries).get? account = some c.after.normalize := by
    have hlookup : Table.lookup account δ.changes.entries = some c := h
    rw [get?_writeChanges (Table.pairwise_ne δ.changes.sorted), hlookup]
    rfl
  rw [Balances.of, hget]
  exact Decimal.value_normalize c.after

namespace Service

variable {s s₁ s₂ s₃ : Service} {i : Intent} {c : Consensus} {d d₁ d₂ d₃ : Disk}
  {host host' : Host} {course : Course} {tx : String} {crash : Option CrashPoint} {p : Predicate}

/-- A verification decides on the current balances, and changes the place for events at most. -/
theorem returns_verify (s : Service) (i : Intent) (host : Host) :
    (s.verify i host).Returns fun r =>
      r.1.layer = s.layer ∧ r.2 = (s.judge.decide host.course i s.layer.balances).1 := by
  unfold verify
  refine Program.Returns.bind (Job.returns_true _) fun r _ => ?_
  cases r <;> exact Program.returns_pure ⟨rfl, rfl⟩

/-- Where events are kept in memory, a verification does nothing to the files. -/
theorem run_verify (s : Service) (i : Intent) (d : Disk) (host : Host) {events : List Event}
    (hsink : s.sink = .memory events) : ∃ events', (s.verify i host).run d =
      (({ s with sink := .memory events' },
        (s.judge.decide host.course i s.layer.balances).1), d) := by
  unfold verify
  rw [hsink]
  generalize s.judge.decide host.course i s.layer.balances = r
  exact ⟨_, rfl⟩

/-- What is said to be committed was approved, and its delta has been written. -/
theorem returns_commit (s : Service) (tx : String) (c : Consensus) (host : Host)
    (crash : Option CrashPoint) : (s.commit tx c host crash).Returns fun r =>
      r.2 = .ok .committed → ∃ δ, c.approved = true ∧ c.delta = some δ ∧
        r.1.layer.balances = State.writeChanges s.layer.balances δ.changes.entries := by
  refine Program.Returns.bind (Layer.returns_commit tx c host crash) fun r hr => ?_
  refine Program.returns_pure fun hok => ?_
  obtain ⟨δ, happroved, hδ, -, hafter⟩ := hr hok
  exact ⟨δ, happroved, hδ, hafter⟩

/-! ## What is approved is committed -/

/-- A decision that approves an intent is committed, if the layer awaits the transaction and has
the balances that the decision changes. -/
theorem run_commit_of_approved {j : Judge} {b : Balances} {rest : List String} (host : Host)
    (happroved : (j.decide course i b).1.approved = true) (hawaits : s.layer.Awaits d (tx :: rest))
    (hfresh : ∀ δ, (j.decide course i b).1.delta = some δ → s.layer.isStale δ = false) : ∃ l e,
    (s.commit tx (j.decide course i b).1 host none).run d =
      (({ s with layer := l }, .ok .committed), e) ∧ l.Awaits e rest := by
  obtain ⟨δ, hδ, hcommittable, -⟩ := Judge.committable?_decide happroved
  obtain ⟨-, -, -, e, l, -, -, hrun, hrest⟩ :=
    Layer.run_commit host hawaits hcommittable (hfresh δ hδ)
  refine ⟨l, e, ?_, hrest⟩
  unfold commit
  rw [Program.run_bind, hrun]
  rfl

/-- What is approved on the current balances is not stale. -/
theorem fresh_of_approved {j : Judge}
    (happroved : (j.decide course i s.layer.balances).1.approved = true) {δ : Delta}
    (hδ : (j.decide course i s.layer.balances).1.delta = some δ) : s.layer.isStale δ = false := by
  obtain ⟨δ', hδ', -, hbefore⟩ := Judge.committable?_decide happroved
  obtain rfl := Option.some.inj (hδ.symm.trans hδ')
  exact Layer.isStale_eq_false hbefore

/-! ## A ledger of two accounts -/

/-- The judge of the usual settings. -/
def usualJudge : Judge where
  gate := ⟨48, .ofInt64 1000000000000, 28⟩
  pattern := ⟨.ofInt64 1000000000000, 0.9, 0.5⟩
  thresholds := .usual
  precision := 28

/-- The ledger of two accounts, just opened with the usual settings. -/
def twoAccounts : Service where
  config := .usual
  judge := usualJudge
  layer := Ledger.twoLayer "ledger" 50000
  sink := .memory []

open Ledger (foundedDisk twoState)

theorem recover_twoAccounts (host : Host) : ∃ report,
    (recover .usual (.memory []) host).run.run (foundedDisk twoState) =
      (.ok (twoAccounts, report), foundedDisk twoState) := by
  have hvalid : Config.usual.validate = .ok () := by decide
  have hjudge : Judge.ofConfig .usual = .ok usualJudge := rfl
  refine ⟨⟨[], [], twoState.version, twoState.merkleRoot, 0, false, []⟩, ?_⟩
  unfold recover
  refine (Job.run_bind_ok (congrArg (·, foundedDisk twoState) hvalid)).trans ?_
  refine (Job.run_bind_ok (Ledger.recover_founded (Ledger.load_twoState _) rfl host
    (by decide))).trans ?_
  exact (Job.run_bind_ok (congrArg (·, foundedDisk twoState) hjudge)).trans rfl

theorem awaits_twoAccounts :
    twoAccounts.layer.Awaits (foundedDisk twoState) ["t1", "t2"] :=
  Layer.awaits_twoLayer "ledger" (by decide) (by decide) (by decide) (by decide)

/-- An intent that is approved on the two accounts is committed. -/
theorem run_twoAccounts (h : (usualJudge.decide .calm i twoState.balances).1.approved = true)
    (now : UInt64) (host : Host) : ∃ s₁ s₂ d₂,
      (twoAccounts.verify i (.still now)).run (foundedDisk twoState) =
        ((s₁, (usualJudge.decide .calm i twoState.balances).1), foundedDisk twoState) ∧
      s₁.layer = twoAccounts.layer ∧
      (s₁.commit "t1" (usualJudge.decide .calm i twoState.balances).1 host none).run
        (foundedDisk twoState) = ((s₂, .ok .committed), d₂) := by
  obtain ⟨events, hverify⟩ := run_verify twoAccounts i (foundedDisk twoState) (.still now) rfl
  obtain ⟨l, e, hcommit, -⟩ := run_commit_of_approved
    (s := { twoAccounts with sink := .memory events }) host h awaits_twoAccounts
    fun δ hδ => fresh_of_approved (s := twoAccounts) h hδ
  exact ⟨_, _, e, hverify, rfl, hcommit⟩

/-! ## Post-conditions -/

/-- A predicate across the transition of an intent that was verified and then committed is true
of the balances just before and just after the commit, if all its variables are balances that
do not come from outside, and the intent assigns those after the transition. -/
theorem holds_of_committed (hverify : (s.verify i host).run d = ((s₁, c), d₁))
    (hbetween : s₂.layer.balances = s₁.layer.balances)
    (hcommit : (s₂.commit tx c host' crash).run d₂ = ((s₃, .ok .committed), d₃))
    (hp : p ∈ i.verify) (hbalances : p.IsAboutBalances i)
    (hsettled : p.IsSettledBy i) :
    p.Holds s.judge.precision (s₂.layer.balances.around s₃.layer.balances) := by
  have hv := returns_verify s i host d
  rw [hverify] at hv
  obtain ⟨hlayer, rfl⟩ := hv
  have hc := returns_commit s₂ tx (s.judge.decide host.course i s.layer.balances).1 host' crash d₂
  rw [hcommit] at hc
  obtain ⟨δ, happroved, hδ, hafter⟩ := hc rfl
  rw [hafter, hbetween, hlayer]
  exact Judge.holds_of_approved happroved hδ (State.isWrittenIn_writeChanges _ δ) hp hbalances
    hsettled

/-- A transfer after which the first account has no less than the second one. -/
def transfer : Intent := .ofPredicates "transfer"
  [⟨.var "alice.balance", .ge, .lit "40"⟩]
  [⟨.var "alice.balance'", .eq, .sub (.var "alice.balance") (.lit "40")⟩,
    ⟨.var "bob.balance'", .eq, .add (.var "bob.balance") (.lit "40")⟩,
    ⟨.var "alice.balance'", .ge, .var "bob.balance'"⟩]

/-- A post-condition of the transfer that assigns nothing. -/
theorem holds_of_committed_transfer : ∃ s₁ s₂ c d₂,
    (twoAccounts.verify transfer (.still 0)).run (foundedDisk twoState) =
      ((s₁, c), foundedDisk twoState) ∧
    (s₁.commit "t1" c (.still 1) none).run (foundedDisk twoState) = ((s₂, .ok .committed), d₂) ∧
    Predicate.Holds 28 (s₁.layer.balances.around s₂.layer.balances)
      ⟨.var "alice.balance'", .ge, .var "bob.balance'"⟩ := by
  have happroved : (usualJudge.decide .calm transfer twoState.balances).1.approved = true := by
    decide +kernel
  obtain ⟨s₁, s₂, d₂, hverify, -, hcommit⟩ := run_twoAccounts happroved 0 (.still 1)
  refine ⟨s₁, s₂, _, d₂, hverify, hcommit, holds_of_committed hverify rfl hcommit ?_ ?_ ?_⟩
  · decide
  · unfold Predicate.IsAboutBalances
    decide
  · intro name hname account haccount
    have hcases : name = "alice.balance'" ∨ name = "bob.balance'" := by
      simpa [Predicate.occurrences, Expr.occurrences] using hname
    obtain rfl | rfl := hcases
    · obtain rfl : "alice" = account := Option.some.inj haccount
      exact ⟨.sub (.var "alice.balance") (.lit "40"), by decide, by decide⟩
    · obtain rfl : "bob" = account := Option.some.inj haccount
      exact ⟨.add (.var "bob.balance") (.lit "40"), by decide, by decide⟩

/-- An intent that forecasts balances. The one of the second account before the transition comes
from outside, and the one after it is assigned nothing. -/
def forecast : Intent where
  id := "forecast"
  guard := [⟨.var "bob.balance", .eq, .lit "420"⟩]
  verify := [⟨.var "alice.balance'", .eq, .add (.var "bob.balance") (.lit "80")⟩,
    ⟨.var "alice.balance'", .ge, .lit "500"⟩, ⟨.var "bob.balance'", .ge, .lit "500"⟩]
  metadata := .none
  variableFlags := .ofList [("bob.balance", ⟨true, false⟩)]

/-- What is committed need not hold where the intent does not settle it. -/
theorem not_holds_of_committed_forecast : ∃ s s₁ s₂ c d₂ report,
    (recover .usual (.memory []) (.still 0)).run.run (foundedDisk twoState) =
      (.ok (s, report), foundedDisk twoState) ∧
    (s.verify forecast (.still 0)).run (foundedDisk twoState) = ((s₁, c), foundedDisk twoState) ∧
    c.approved = true ∧
    (s₁.commit "t1" c (.still 1) none).run (foundedDisk twoState) = ((s₂, .ok .committed), d₂) ∧
    ∀ p ∈ forecast.verify.drop 1, p.IsAboutBalances forecast ∧
      ¬ p.Holds s.judge.precision (s₁.layer.balances.around s₂.layer.balances) := by
  have happroved : (usualJudge.decide .calm forecast twoState.balances).1.approved = true := by
    decide +kernel
  obtain ⟨report, hrecover⟩ := recover_twoAccounts (.still 0)
  obtain ⟨s₁, s₂, d₂, hverify, hlayer, hcommit⟩ := run_twoAccounts happroved 0 (.still 1)
  refine ⟨twoAccounts, s₁, s₂, _, d₂, report, hrecover, hverify, happroved, hcommit, ?_⟩
  -- Alice is assigned what she has, so the commit changes no balance.
  have hwritten : ∀ δ ∈ (usualJudge.decide .calm forecast twoState.balances).1.delta,
      State.writeChanges twoState.balances δ.changes.entries = twoState.balances := by
    decide +kernel
  have hc := returns_commit s₁ "t1" (usualJudge.decide .calm forecast twoState.balances).1
    (.still 1) none (foundedDisk twoState)
  rw [hcommit] at hc
  obtain ⟨δ, -, hδ, hafter⟩ := hc rfl
  have hbefore : s₁.layer.balances = twoState.balances := by rw [hlayer]; rfl
  rw [hafter, hbefore, hwritten δ hδ]
  unfold Predicate.IsAboutBalances
  decide +kernel

end Service
end LedgerGate

import LedgerGate.Proofs.Ledger.Identifiers
import LedgerGate.Proofs.Ledger.Idempotence
import LedgerGate.Proofs.Ledger.Reversal
import LedgerGate.Proofs.Log.Lifecycle

/-!
# Compaction cannot be seen

A compaction moves what has ended from one log to the other. The state and the entries of open
transactions stay as they are in whatever it leaves behind (`Recovery.Rearranged`), and these are
all that a recovery goes by, besides the identifiers that have been used. So it does not matter to
a recovery whether there was a compaction before it, and how far that came
(`Ledger.compact_invisible`).
-/

namespace LedgerGate.Recovery

open Ledger
open Log (Entry Record openIn pathOf)

variable {dir : String} {d d' d₁ : Disk} {i j : Nat} {F F₁ : Files} {l : Layer}

/-! ## What compaction leaves alone -/

/-- Whether files are what others become while nothing is taken back from the state and nothing
ends in the log. -/
structure Rearranged (F : Files) (_ : Unit) (F₁ : Files) : Prop where
  repairs : F.Repairs F₁
  state : F₁.state = F.state
  opened : openIn F₁.log = openIn F.log

instance : Noting unseen (Rearranged F) where
  look _ := rfl

instance : Steady (Rearranged F) where
  rearrange _ hF hr :=
    ⟨hF.repairs.tail hr.repair, hr.state.trans hF.state, hr.opened.trans hF.opened⟩

theorem coherent_rearranged (hF : F.Legible) : F.Coherent (Rearranged F) () :=
  ⟨hF, .refl, rfl, rfl⟩

/-- Wherever a compaction stops, it has only rearranged the files. -/
theorem rearranged_of_execution (hs : Stores d i F) (hF : F.Legible) (hl : l.Mirrors i F)
    {ds : List Disk} {r : Option (Except Fault (Layer × Nat))}
    (he : Execution l.compact.run d ds d' r) :
    ∃ j F₁, Stores d' j F₁ ∧ F₁.Legible ∧ Rearranged F () F₁ := by
  have hF' := coherent_rearranged hF
  have hkeeps : Safely unseen (Rearranged F) l.compact (fun _ _ _ => True) (Only True) () d :=
    Layer.safely_compact hs hF' hl (fun _ _ _ _ _ _ _ _ => trivial) fun _ _ _ _ _ _ _ => trivial
  obtain ⟨j, F₁, hs₁, hF₁⟩ := (he.keeps ⟨i, F, hs, hF'⟩ hkeeps).1
  exact ⟨j, F₁, hs₁, hF₁.toLegible, hF₁.fits⟩

/-- A compaction succeeds unless a directory is in its way. -/
theorem exists_compact (hs : Stores d i F) (hF : F.Legible) (hl : l.Mirrors i F)
    (hfree : ¬ Hindered F) : ∃ l' n d' F₁, l.compact.run.run d = (.ok (l', n), d') ∧
      Stores d' l'.log.id F₁ ∧ F₁.Legible ∧ F₁.log = l.begun ∧ F₁.logTail = [] := by
  have hF' := coherent_rearranged hF
  have hkeeps : Safely unseen (Rearranged F) l.compact
      (fun p _ d' => ∃ F₁, Stores d' p.1.log.id F₁ ∧ F₁.Legible ∧ F₁.log = l.begun ∧
        F₁.logTail = [])
      (Only False) () d := by
    refine Layer.safely_compact hs hF' hl (fun l' n d' F₁ hs₁ hl₁ hc _ => ?_)
      fun f d' F₁ hb _ _ _ => hfree ?_
    · exact ⟨F₁, hs₁, hF.repairs hc.repairs, hc.log, hl₁.logTail⟩
    · exact ⟨_, isTempName_replacementName, by decide, hb⟩
  obtain ⟨ds, he⟩ := Execution.of_run l.compact.run d
  have hend := (he.keeps ⟨i, F, hs, hF'⟩ hkeeps).2 _ rfl
  generalize l.compact.run.run d = r at hend
  obtain ⟨r, d'⟩ := r
  cases r with
  | ok p =>
    obtain ⟨F₁, hs₁, hF₁, hlog, htail⟩ := hend
    exact ⟨p.1, p.2, d', F₁, rfl, hs₁, hF₁, hlog, htail⟩
  | error f => exact hend.elim

/-! ## What recovery goes by -/

/-- Whether two recoveries come to the same: they fail for the same reason, or they succeed with the
same state, report the same transactions and refuse the same identifiers. -/
def Agree : Except Fault (Layer × Report) → Except Fault (Layer × Report) → Prop
  | .ok p, .ok q =>
    p.1.state = q.1.state ∧ p.2.discarded = q.2.discarded ∧ p.2.reverted = q.2.reverted ∧
      ∀ tx, p.1.refuseStep .begin tx = q.1.refuseStep .begin tx
  | .error f, .error g => f = g
  | _, _ => False

theorem run_recover_unreadable (hs : Stores d i F) (hF : F.Legible)
    (hnot : ¬ F.state.IsReadable) (threshold : Nat) (host : Host) :
    (recover dir threshold host).run.run d =
      (.error (.stateMalformed (pathOf dir stateName) "not a ledger state"), d) := by
  obtain ⟨k, hk⟩ := hs.state
  have hload : (loadState dir).run.run d =
      (.error (.stateMalformed (pathOf dir stateName) "not a ledger state"), d) := by
    rw [run_loadState (by rw [Disk.read, hk]), hF.intact.load_bytes, if_neg hnot]
  unfold recover examine
  exact Job.run_bind_error (Job.run_bind_error hload)

/-- Recoveries of files come to the same when these were only rearranged. -/
theorem agree_of_rearranged (hs : Stores d i F) (hF : F.Legible) (hs₁ : Stores d₁ j F₁)
    (hF₁ : F₁.Legible) (hr : Rearranged F () F₁) (hfree : ¬ Hindered F) (θ θ' : Nat)
    (host host' : Host) :
    Agree ((recover dir θ host).run.run d).1 ((recover dir θ' host').run.run d₁).1 := by
  by_cases hreadable : F.state.IsReadable
  · have hfree₁ : ¬ Hindered F₁ := by
      rw [Hindered, hr.repairs.blocked]
      exact hfree
    obtain ⟨⟨l, report⟩, e, hrun⟩ : ∃ p e, (recover dir θ host).run.run d = (.ok p, e) :=
      exists_recover θ host hs hF hreadable hfree
    obtain ⟨⟨l₁, report₁⟩, e₁, hrun₁⟩ :
        ∃ p e, (recover dir θ' host').run.run d₁ = (.ok p, e) :=
      exists_recover θ' host' hs₁ hF₁ (hr.state ▸ hreadable) hfree₁
    have hused := (outcome_of_run hs hF hrun).2.used
    have hused₁ := (outcome_of_run hs₁ hF₁ hrun₁).2.used
    obtain ⟨hdiscarded, p, hundo, hstate⟩ := restores_of_recover hs hF hrun
    obtain ⟨hdiscarded₁, p₁, hundo₁, hstate₁⟩ := restores_of_recover hs₁ hF₁ hrun₁
    rw [hr.opened] at hdiscarded₁ hundo₁
    rw [hr.state] at hundo₁ hstate₁
    have hsame : p₁.restores F.state = p.restores F.state := by
      rw [Plan.restores, Plan.restores, Except.ok.inj (hundo.symm.trans hundo₁)]
    obtain ⟨hs, hrev⟩ := Prod.mk.inj (hstate.trans (hsame.symm.trans hstate₁.symm))
    rw [hrun, hrun₁]
    refine ⟨hs, hdiscarded.trans hdiscarded₁.symm, hrev, fun tx => ?_⟩
    have hiff : l.isUsed tx = l₁.isUsed tx := by
      rw [Bool.eq_iff_iff, hused tx, hused₁ tx, hr.repairs.mem_ids]
    rw [Layer.refuseStep_begin, Layer.refuseStep_begin, hiff]
  · rw [run_recover_unreadable hs hF hreadable,
      run_recover_unreadable hs₁ hF₁ (hr.state ▸ hreadable)]
    rfl

end LedgerGate.Recovery

namespace LedgerGate.Ledger

open Log (Entry lines openIn)
open Recovery

variable {dir : String} {b : Balances} {start : Disk} {past : List Disk} {w : World} {l : Layer}

/-- A compaction of a ledger that is open succeeds. It leaves the state and the state file as they
are, and in the log just the entries of open transactions in their order, and it says how many
entries it has dropped. Wherever it is stopped, also in the middle of an append, a recovery of what
it leaves comes to the same as one without it. -/
theorem compact_invisible (hr : Run dir b w) (hl : w.layer = some l) :
    (∃ l' n d, l.compact.run.run w.disk = (.ok (l', n), d) ∧ l'.state = l.state ∧
      d.content? stateName = w.disk.content? stateName ∧
      l.begun = openIn (logEntries w.disk) ∧ d.content? logName = some (lines l.begun) ∧
      n + (logEntries d).length = (logEntries w.disk).length) ∧
    ∀ ds d r, Execution l.compact.run w.disk ds d r →
      d.content? stateName = w.disk.content? stateName ∧
      ∀ θ host θ' host', Agree ((recover dir θ host).run.run w.disk).1
        ((recover dir θ' host').run.run d).1 := by
  obtain ⟨start, past, hS⟩ := hr.exists_story
  have hupholds : Upholds (Blocks start)
      (past.foldl (fun u d => Recovery.unseen u (logEntries d)) ()) w.disk w.layer :=
    hS.upholds fun _ _ => rfl
  obtain ⟨i, F, hs, hF, hmir, -⟩ := hupholds.layer l hl
  have hfree := hS.not_hindered hl hF.fits
  have hfile : ∀ {ds d r}, Execution l.compact.run w.disk ds d r →
      d.content? stateName = w.disk.content? stateName := by
    intro ds d r he
    obtain ⟨j, F₁, hs₁, -, hr₁⟩ := rearranged_of_execution hs hF.toLegible hmir he
    obtain ⟨k, hk⟩ := hs.state
    obtain ⟨k₁, hk₁⟩ := hs₁.state
    rw [content?_of_get? hk, content?_of_get? hk₁, hr₁.state]
  refine ⟨?_, fun ds d r he => ⟨hfile he, fun θ host θ' host' => ?_⟩⟩
  · obtain ⟨l', n, d, F₁, hrun, hs₁, hF₁, hlog, htail⟩ := exists_compact hs hF.toLegible hmir hfree
    obtain ⟨ds, he⟩ := Execution.exists_of_run hrun
    obtain ⟨hstate, hn⟩ := Layer.returns_compact l w.disk (l', n) (by rw [hrun])
    have hbefore : logEntries w.disk = F.log := hs.logEntries hF.toLegible
    have hafter : logEntries d = l.begun := (hs₁.logEntries hF₁).trans hlog
    have hlength := hF.orderly.length_eq
    rw [← hmir.begun, ← hmir.endedInLog] at hlength
    refine ⟨l', n, d, hrun, hstate, hfile he, hbefore ▸ hmir.begun, ?_, ?_⟩
    · rw [content?_of_get? hs₁.log, hlog, htail, List.append_nil]
    · rw [hbefore, hafter, hlength, show n = _ from hn]
      omega
  · obtain ⟨j, F₁, hs₁, hF₁, hr₁⟩ := rearranged_of_execution hs hF.toLegible hmir he
    exact agree_of_rearranged hs hF.toLegible hs₁ hF₁ hr₁ hfree θ θ' host host'

/-- The payment has ended and the gift is open. A compaction drops the two entries of the payment,
for which there is an end to be retired, and keeps the beginning of the gift. -/
theorem compact_invisible_giftInterrupted : ∃ (w : World) (l : Layer) (b : Entry),
    Run "data" twoBalances w ∧ w.layer = some l ∧ b.op = .begin ∧ b.tx = "t1" ∧
    l.unretired = [⟨.commit, "t0", payloadHash "t0" "payment" payment, 1⟩] ∧
    (∃ l' d, l.compact.run.run w.disk = (.ok (l', 2), d) ∧ l'.state = l.state ∧
      d.content? stateName = w.disk.content? stateName ∧
      d.content? logName = some (lines [b]) ∧
      2 + (logEntries d).length = (logEntries w.disk).length) ∧
    ∀ ds d r, Execution l.compact.run w.disk ds d r →
      ∀ θ host θ' host', Agree ((recover "data" θ host).run.run w.disk).1
        ((recover "data" θ' host').run.run d).1 := by
  obtain ⟨past₀, w₀, l₀, l, d₀, h⟩ := exists_giftInterrupted
  obtain ⟨past, w, hS, rfl, hl, -⟩ := h.exists_story
  obtain ⟨i, F, hint, -⟩ := h.left
  obtain ⟨⟨l', n, d, hrun, hstate, hfile, -, hlog, hlength⟩, hagree⟩ := compact_invisible hS.run hl
  obtain ⟨-, hn⟩ := Layer.returns_compact l w.disk (l', n) (by rw [hrun])
  obtain rfl : n = 2 := by rw [show n = _ from hn, hint.endedInLog, h.endedInLog]
  rw [hint.begun] at hlog
  exact ⟨w, l, _, hS.run, hl, rfl, rfl, hint.unretired.trans h.unretired,
    ⟨l', d, hrun, hstate, hfile, hlog, hlength⟩, fun ds d r he => (hagree ds d r he).2⟩

end LedgerGate.Ledger

import LedgerGate.Proofs.Ledger.Failures
import LedgerGate.Proofs.Ledger.Story

/-!
# Recoveries after commits that failed

After any calls, of which any operations may have failed, a commit that ends in a fault leaves what
the next recovery that comes to an end makes the state from before it. This is so unless the fault
came too late (`recover_of_failed_commit`): then the transaction is committed as a whole, and its
end is in one of the logs.
-/

namespace LedgerGate

open Ledger
open Log (Entry openIn endedIn committedIn)

/-- Whether a layer appends to the file that is under the log's name. -/
def Layer.HoldsLog (l : Layer) (d : Disk) : Prop :=
  ∃ c, d.nodes.get? logName = some (.file l.log.id c)

namespace Ledger

/-- Which layer is open after a call that left one: this one, or none if the program ends. A layer
whose log is not under the log's name any more is no layer of this ledger. A compaction leaves one
if an operation fails when it has renamed the new log and not opened it yet. -/
def GoesOn (left : Option Layer) (d : Disk) (o : Option Layer) : Prop :=
  ∀ l ∈ o, l ∈ left ∧ l.HoldsLog d

/-- The disks, each with the layer that is open, after calls of which any operations may fail. -/
inductive Troubled (dir : String) (b : Balances) : Disk → Option Layer → Prop
  | run {w : World} : Run dir b w → Troubled dir b w.disk w.layer
  | recover {d d' : Disk} {o o' : Option Layer} {fails : FileOp → Prop}
    {r : Except Fault (Layer × Recovery.Report)} (threshold : Nat) (host : Host) :
    Troubled dir b d o → (Ledger.recover dir threshold host).run.Yields fails d r d' →
    GoesOn (openedLayer (some r)) d' o' → Troubled dir b d' o'
  | commit {d d' : Disk} {l : Layer} {o' : Option Layer} {fails : FileOp → Prop}
    {r : Layer.Committed} (tx : String) (q : Consensus) (host : Host) (crash : Option CrashPoint) :
    Troubled dir b d (some l) → (l.commit tx q host crash).Yields fails d r d' →
    GoesOn (some r.1) d' o' → Troubled dir b d' o'
  | compact {d d' : Disk} {l : Layer} {o' : Option Layer} {fails : FileOp → Prop}
    {r : Except Fault (Layer × Nat)} : Troubled dir b d (some l) →
    l.compact.run.Yields fails d r d' → GoesOn (compactedLayer l (some r)) d' o' →
    Troubled dir b d' o'

/-! ## What such calls keep -/

/-- Whether files are credible, and the layer that is open attends to them. -/
def Attended (d : Disk) (o : Option Layer) : Prop :=
  ∃ i F, Stores d i F ∧ F.Credible ∧ ∀ l ∈ o, l.Attends i F

/-- Whether the state from before the last transaction is intact. -/
def Revertible (_ : Unit) (F : Files) : Prop :=
  ∀ u, F.state.undo = some u → (F.state.reverted u).IsIntact

instance : Noting Recovery.unseen Revertible where
  look _ := rfl

instance : Lasting Revertible where
  repair _ hJ hr := by
    cases hr with
    | takeBack => exact fun u hu => absurd hu (Option.some_ne_none u).symm
    | _ => exact hJ

instance (δ : Delta) : Recording Recovery.unseen Revertible δ where
  change hF hJ hc := by
    cases hc with
    | begin | commit => exact hJ
    | apply _ _ _ _ _ hn => exact isIntact_reverted_applied hF.intact hn

variable {dir : String} {b : Balances} {d d' d₁ d₂ d₃ : Disk} {o o' : Option Layer} {i j : Nat}
  {F : Files} {l l' l'' : Layer} {w : World}

theorem Run.attended (hr : Run dir b w) : Attended w.disk w.layer := by
  obtain ⟨start, past, hS⟩ := hr.exists_story
  have hupholds : Upholds Revertible
      (past.foldl (fun h d => Recovery.unseen h (logEntries d)) ()) w.disk w.layer :=
    hS.upholds fun s hgen u hu => by
      obtain ⟨-, rfl⟩ := genesis_ok hgen
      cases hu
  cases hlayer : w.layer with
  | none =>
    obtain ⟨i, F, hs, hF⟩ := hupholds.consistent
    exact ⟨i, F, hs, hF.toLegible.credible hF.fits, nofun⟩
  | some l =>
    obtain ⟨i, F, hs, hF, hmir, hidle⟩ := hupholds.layer l hlayer
    refine ⟨i, F, hs, hF.toLegible.credible hF.fits, fun k hk => ?_⟩
    obtain rfl := Option.some.inj hk
    exact hmir.attends hF.toLegible hidle

theorem GoesOn.id_eq {left : Option Layer} (h : GoesOn left d o) (hs : Stores d i F) (hl : l ∈ o) :
    l ∈ left ∧ l.log.id = i := by
  obtain ⟨hleft, c, hc⟩ := h l hl
  exact ⟨hleft, (Node.file.inj (Option.some.inj (hc.symm.trans hs.log))).1⟩

/-- Whatever fails, the files stay credible, and the layer that is open attends to them. -/
theorem Troubled.attended (h : Troubled dir b d o) : Attended d o := by
  induction h with
  | run hr => exact hr.attended
  | @recover d d' o o' fails r threshold host _ hyields hon ih =>
    obtain ⟨i, F, hs, hF, -⟩ := ih
    have hend := Recovery.outcome_of_credible hs hF hyields
    cases r with
    | ok p =>
      obtain ⟨-, hbegun, j, F', hs', hF', hlegible, hmir⟩ := hend
      refine ⟨j, F', hs', hF', fun k hk => ?_⟩
      obtain rfl := Option.some.inj (hon k hk).1
      exact hmir.attends hlegible fun _ => hbegun
    | error f =>
      obtain ⟨j, F', hs', hF', -⟩ := hend
      exact ⟨j, F', hs', hF', fun k hk => absurd (hon k hk).1 nofun⟩
  | commit tx q host crash _ hyields hon ih =>
    obtain ⟨i, F, hs, hF, hl⟩ := ih
    obtain ⟨j, F', hs', hF', hl', -⟩ := Layer.yields_commit hs hF (hl _ rfl) hyields
    refine ⟨j, F', hs', hF', fun k hk => ?_⟩
    obtain ⟨hleft, hid⟩ := hon.id_eq hs' hk
    obtain rfl := Option.some.inj hleft
    exact hl' hid
  | @compact d d' l o' fails r _ hyields hon ih =>
    obtain ⟨i, F, hs, hF, hl⟩ := ih
    have hl := hl l rfl
    obtain ⟨j, F', hs', hc⟩ := Layer.yields_compact hs (fun h => (hF.retired_missing h).1)
      hl.toTrails hyields
    refine ⟨j, F', hs', hc.credible hF hl.toTrails, fun k hk => ?_⟩
    obtain ⟨hleft, hid⟩ := hon.id_eq hs' hk
    have hattends := hc.attends hl
    cases r with
    | ok p =>
      obtain rfl := Option.some.inj hleft
      exact hattends
    | error f =>
      obtain rfl := Option.some.inj hleft
      obtain rfl : j = i := hid.symm.trans hl.id
      exact hattends rfl

/-! ## Attempts at a recovery -/

/-- An attempt at a recovery that did not come to an end: it ended in a fault, or was stopped. -/
inductive Attempt (dir : String) (d d' : Disk) : Prop
  | failed {fails : FileOp → Prop} {f : Fault} (threshold : Nat) (host : Host) :
    (recover dir threshold host).run.Yields fails d (.error f) d' → Attempt dir d d'
  | stopped {ds : List Disk} (threshold : Nat) (host : Host) :
    Execution (recover dir threshold host).run d ds d' none → Attempt dir d d'

/-- Attempts do not change what credible files restore. -/
theorem restored_of_attempts (hs : Stores d i F) (hF : F.Credible)
    (h : Relation.ReflTransGen (Attempt dir) d d') :
    ∃ j F', Stores d' j F' ∧ F'.Credible ∧ F'.restored = F.restored := by
  induction h with
  | refl => exact ⟨i, F, hs, hF, rfl⟩
  | tail _ hattempt ih =>
    obtain ⟨j, F₁, hs₁, hF₁, hrest₁⟩ := ih
    obtain ⟨k, F₂, hs₂, hF₂, hrest₂⟩ : ∃ k F₂, Stores _ k F₂ ∧ F₂.Credible ∧
        F₂.restored = F₁.restored := by
      cases hattempt with
      | failed threshold host hyields => exact Recovery.outcome_of_credible hs₁ hF₁ hyields
      | stopped threshold host he => exact Recovery.credible_of_execution hs₁ hF₁ he
    exact ⟨k, F₂, hs₂, hF₂, hrest₂.trans hrest₁⟩

/-! ## What a recovery makes of a commit that failed -/

variable {tx : String} {q : Consensus} {host host' : Host} {crash : Option CrashPoint} {f : Fault}
  {fails fails' : FileOp → Prop} {threshold : Nat} {report : Recovery.Report}

/-- After a commit that ended in a fault, the next recovery that comes to an end, after any attempts
that did not, leaves the balances, the version and the last transaction from before the commit, and
the transaction is in no log as committed that was not so before. It is otherwise only where waiting
for the log failed or a compaction was due: then the transaction may be committed, and the recovery
leaves its state. -/
theorem recover_of_failed_commit (h : Troubled dir b d (some l)) (hserves : l.fault = none)
    (hcommit : (l.commit tx q host crash).Yields fails d (l', .error f) d₁)
    (hattempts : Relation.ReflTransGen (Attempt dir) d₁ d₂)
    (hrec : (recover dir threshold host').run.Yields fails' d₂ (.ok (l'', report)) d₃) :
    (l''.state.Matches l.state ∧ (tx ∈ committedOn d₁ → tx ∈ committedOn d)) ∨
      ((fails (.syncFile l.log.id) ∨ l.compactionThreshold ≤ l.endedInLog + 1) ∧
        tx ∈ committedOn d₁ ∧ tx ∉ committedOn d ∧ ∃ δ, q.delta = some δ ∧
          l.state.applied tx q.intentHash (payloadHash tx q.intentHash δ) δ = .ok l''.state) := by
  obtain ⟨i, F, hs, hF, hl⟩ := h.attended
  obtain ⟨j, F₁, hs₁, hF₁, -, hleft⟩ := Layer.yields_commit hs hF (hl l rfl) hcommit
  obtain ⟨k, F₂, hs₂, hF₂, hrest⟩ := restored_of_attempts hs₁ hF₁ hattempts
  have hstate : l''.state = F₁.restored :=
    (Recovery.outcome_of_credible hs₂ hF₂ hrec).1.trans hrest
  rw [hs.committedOn hF, hs₁.committedOn hF₁, hstate]
  rcases hleft hserves f rfl with hkept | ⟨hlate, hunc, δ, next, hδ, hn, hbears⟩
  · exact .inl hkept
  · exact .inr ⟨hlate, hbears.committed, hunc, δ, hδ, hbears.restored.symm ▸ hn⟩

/-- A commit fails if waiting for the line of its beginning does, and that line is in the log. -/
theorem yields_commit_unsynced {δ : Delta} (hadmission : l.admission tx q = .ok (some δ))
    (hstale : l.isStale δ = false) (hnew : l.isUsed tx = false)
    (hfails : fails (.syncFile l.log.id)) (e : FileError) :
    (l.commit tx q host crash).Yields fails d (l, .error (.io l.log.path e.message))
      (d.append l.log.id
        (Entry.bytes ⟨.begin, tx, payloadHash tx q.intentHash δ, host.clock 0⟩)) := by
  have hok : l.refuseStep .begin tx = none := by simp [Layer.refuseStep, hnew, Log.Op.isTerminal]
  unfold Layer.commit
  rw [hadmission]
  dsimp only
  rw [if_neg (by simp [hstale])]
  unfold Layer.beginAndApply Layer.logStep
  dsimp only
  rw [hok]
  exact .perform (.fail e hfails (.done _ _))

/-- The gift fails when it waits for the line of its beginning. The next recovery finds that line,
and the ledger is as it was before. -/
theorem recover_of_failed_commit_gift : ∃ (l l' l'' : Layer) (d d₁ d₂ : Disk) (f : Fault)
    (report : Recovery.Report), Troubled "data" twoBalances d (some l) ∧ l.fault = none ∧
      (l.commit "t1" giftDecision (.still 0) none).Yields (· = .syncFile 0) d (l', .error f) d₁ ∧
      (recover "data" 8 (.still 0)).run.Yields (fun _ => False) d₁ (.ok (l'', report)) d₂ ∧
      "t1" ∈ (logEntries d₁).map Entry.tx ∧ l''.state.Matches l.state := by
  obtain ⟨past, hS⟩ := exists_opened
  have hopened := hS.run
  have hgift : (giftAndBill false).Offers gift := ⟨by decide, by decide⟩
  have hadmission : (twoLayer "data" 8).admission "t1" giftDecision = .ok (some gift) :=
    Layer.admission_eq_some_iff.mpr ⟨hgift.tx, rfl, hgift.delta⟩
  have hstale : (twoLayer "data" 8).isStale gift = false := Layer.isStale_eq_false (by decide)
  -- The line of the beginning gets into the log, and is all that is in it.
  have hcommit : ((twoLayer "data" 8).commit "t1" giftDecision (.still 0) none).Yields
      (· = .syncFile 0) (foundedDisk twoState)
      (twoLayer "data" 8, .error (.io _ FileError.busy.message))
      ((foundedDisk twoState).append 0 (Entry.bytes ((giftAndBill false).entry gift))) :=
    yields_commit_unsynced hadmission hstale rfl (by rfl) .busy
  have hF := (legible_founded genesis_twoBalances .empty).begin hgift.isSound rfl nofun
  have hs := stores_twoState.appendEntry rfl ((giftAndBill false).entry gift)
  obtain ⟨⟨l'', report⟩, d₂, hrun⟩ := Recovery.exists_recover 8 (.still 0) hs hF (by decide)
    (((tidy_foundedDisk twoState).append 0 _).noTempFiles.not_hindered hs)
  have hlog := hs.logEntries hF
  have hnone : "t1" ∉ committedOn ((foundedDisk twoState).append 0
      (Entry.bytes ((giftAndBill false).entry gift))) := by
    rw [committedOn, hlog, hs.retiredEntries hF]
    simp [committedIn, Files.founded, Request.entry]
  have hyields : (recover "data" 8 (.still 0)).run.Yields (fun _ => False) _
      (.ok (l'', report)) d₂ := Program.yields_of_run hrun
  refine ⟨twoLayer "data" 8, _, l'', _, _, d₂, _, report, .run hopened, rfl, hcommit, hyields,
    ?_, ?_⟩
  · rw [hlog]
    simp [Files.founded, Request.entry, giftAndBill]
  · rcases recover_of_failed_commit (.run hopened) rfl hcommit .refl hyields with
      ⟨hmatches, -⟩ | ⟨-, hcommitted, -⟩
    · exact hmatches
    · exact absurd hcommitted hnone

end Ledger
end LedgerGate

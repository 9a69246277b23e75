import LedgerGate.Proofs.Ledger.Interruption
import LedgerGate.Proofs.Ledger.Reversal
import LedgerGate.Proofs.Ledger.Story

/-!
# What recovery accepts

Recovery finds nothing to refuse in what the calls of a run have left behind, wherever they
were stopped: if the state file can be read, all checks pass. Then only a directory can be in
the way, where recovery writes a temporary file or removes one. The ledger makes no directory,
so it was there before, and then recovery never succeeds (`Ledger.exists_recover_iff`).
-/

namespace LedgerGate.Ledger

open Log (Entry openIn pathOf)
open Recovery (Hindered)

/-- Whether the temporary names that are taken by directories are those of a disk. -/
def Blocks (start : Disk) (_ : Unit) (F : Files) : Prop :=
  F.blocked = fun n => start.nodes.get? n = some .directory

instance {start : Disk} : Noting Recovery.unseen (Blocks start) where
  look _ := rfl

instance {start : Disk} : Lasting (Blocks start) where
  repair _ hF hr := hr.blocked.trans hF

instance {start : Disk} {δ : Delta} : Recording Recovery.unseen (Blocks start) δ where
  change _ hF hc := hc.blocked.trans hF

variable {dir : String} {b : Balances} {start d d' : Disk} {past : List Disk} {w : World}
  {i : Nat} {F : Files} {s : State}

/-- What a story leaves behind are legible files. -/
theorem Story.exists_stores (hS : Story dir b start past w) :
    ∃ i F, Stores w.disk i F ∧ F.Legible ∧ Blocks start () F := by
  have hupholds : Upholds (Blocks start)
      (past.foldl (fun u d => Recovery.unseen u (logEntries d)) ()) w.disk w.layer :=
    hS.upholds fun _ _ => rfl
  obtain ⟨i, F, hs, hF⟩ := hupholds.consistent
  exact ⟨i, F, hs, hF.toLegible, hF.fits⟩

theorem isReadable_of_load (hs : Stores d i F) (hF : F.Legible)
    (hload : (loadState dir).run.run d = (.ok s, d')) : F.state.IsReadable := by
  obtain ⟨j, hj⟩ := hs.state
  have hrun : (loadState dir).run.run d = _ := run_loadState (by rw [Disk.read, hj])
  by_contra hnot
  rw [hF.intact.load_bytes, if_neg hnot, hload] at hrun
  cases (Prod.mk.inj hrun).1

/-- All checks of a recovery pass, and they change nothing. -/
theorem run_examine (dir : String) (hs : Stores d i F) (hF : F.Legible)
    (hreadable : F.state.IsReadable) : ∃ c, (Recovery.examine dir).run.run d = (.ok c, d) := by
  have hF' : F.Coherent (Recovery.Within F) () := ⟨hF, .refl⟩
  have hkeeps : Safely Recovery.unseen (Recovery.Within F) (Recovery.examine dir)
      (fun _ _ e => e = d) (Recovery.Only False) () d :=
    Recovery.safely_examine hs hF' (fun _ _ _ => rfl) fun hnot => hnot hreadable
  obtain ⟨ds, he⟩ := Execution.of_run (Recovery.examine dir).run d
  have hend := (he.keeps ⟨i, F, hs, hF'⟩ hkeeps).2 _ rfl
  generalize (Recovery.examine dir).run.run d = r at hend
  obtain ⟨r, e⟩ := r
  cases r with
  | ok c => exact ⟨c, congrArg _ hend⟩
  | error f => exact hend.elim

/-- A directory that has the name of a temporary file is never removed. -/
theorem not_recover_of_hindered (hs : Stores d i F) (hF : F.Legible) (hh : Hindered F)
    {threshold : Nat} {host : Host} {p : Layer × Recovery.Report} :
    (recover dir threshold host).run.run d ≠ (.ok p, d') := by
  intro hrun
  obtain ⟨hrecovers, hrepaired⟩ := Recovery.outcome_of_run hs hF hrun
  obtain ⟨j, F', hs', hr, -⟩ := hrepaired.files
  obtain ⟨n, htemp, hdirect, hblocked⟩ := hh
  exact hrecovers.noTemps.not_hindered hs' ⟨n, htemp, hdirect, hr.blocked ▸ hblocked⟩

/-- A recovery of what a story leaves behind succeeds if the state file can be read and there
was no directory in the way at the beginning. -/
theorem Story.exists_recover (hS : Story dir b start past w)
    (hload : (loadState dir).run.run w.disk = (.ok s, d))
    (hfree : ∀ name, isTempName name = true → Disk.isDirect name = true →
      start.nodes.get? name ≠ some .directory) (threshold : Nat) (host : Host) :
    ∃ p e, (Ledger.recover dir threshold host).run.run w.disk = (.ok p, e) := by
  obtain ⟨i, F, hs, hF, hblocks⟩ := hS.exists_stores
  refine Recovery.exists_recover threshold host hs hF (isReadable_of_load hs hF hload) ?_
  rintro ⟨n, htemp, hdirect, hn⟩
  rw [hblocks] at hn
  exact hfree n htemp hdirect hn

/-- Where a ledger was ever opened, no directory is in the way of a temporary file. -/
theorem Story.not_hindered (hS : Story dir b start past w) (hl : w.layer = some l) {F : Files}
    (hF : Blocks start () F) : ¬ Hindered F := by
  induction hS generalizing l with
  | found => cases hl
  | @recover past ds w d r threshold host hS he =>
    obtain ⟨i, F₀, hs, hF₀, hblocks⟩ := hS.exists_stores
    rcases r with _ | ⟨f⟩ | ⟨p⟩
    · cases hl
    · cases hl
    · intro hh
      have hblocked : F₀.blocked = F.blocked := hblocks.trans hF.symm
      exact not_recover_of_hindered hs hF₀ (by rwa [Hindered, hblocked]) he.run_eq
  | @commit past ds w l₀ d r tx c host crash hS hl₀ he ih => exact ih hl₀
  | compact hS hl₀ he ih => exact ih hl₀
  | drop => cases hl

/-! ## What an interrupted transaction leaves behind -/

/-- The files of a ledger that is open are those that its layer mirrors. -/
theorem Run.exists_stores (hr : Run dir b w) (hl : w.layer = some l) : ∃ i F,
    Stores w.disk i F ∧ F.Legible ∧ l.Mirrors i F ∧ ¬ Hindered F ∧
      (l.fault = none → l.begun = []) := by
  obtain ⟨start, past, hS⟩ := hr.exists_story
  have hupholds : Upholds (Blocks start)
      (past.foldl (fun u d => Recovery.unseen u (logEntries d)) ()) w.disk w.layer :=
    hS.upholds fun _ _ => rfl
  obtain ⟨i, F, hs, hF, hmir, hidle⟩ := hupholds.layer l hl
  exact ⟨i, F, hs, hF.toLegible, hmir, hS.not_hindered hl hF.fits, hidle⟩

/-- What is left of a transaction that was interrupted after its state had got into the state file:
the state with it, and its entry as the only open one. -/
structure Interrupted (l : Layer) (tx intentHash : String) (δ : Delta) (l' : Layer)
    (time : UInt64) : Prop where
  fresh : ∀ p ∈ δ.changes.entries, (l.balances.of p.1).sameValue p.2.before = true
  applied : l.state.applied tx intentHash (payloadHash tx intentHash δ) δ = .ok l'.state
  begun : l'.begun = [⟨.begin, tx, payloadHash tx intentHash δ, time⟩]
  unretired : l'.unretired = l.unretired
  endedInLog : l'.endedInLog = l.endedInLog

theorem interrupted_of_commit (hr : Run dir b w) (hl : w.layer = some l)
    (hcommit : (l.commit tx c host (some .renamed)).run w.disk =
      ((l', .error (.interrupted CrashPoint.renamed.message)), d)) :
    ∃ δ i F, c.delta = some δ ∧ Interrupted l tx c.intentHash δ l' (host.clock 0) ∧
      Stores d i F ∧ F.Legible ∧ l'.Mirrors i F ∧ ¬ Hindered F := by
  obtain ⟨δ, log, next, hadm, hstale, hnext, hl'⟩ := Layer.returns_commit_renamed l tx c host w.disk
    (.interrupted CrashPoint.renamed.message) (by rw [hcommit]) ⟨_, rfl⟩
  rw [hcommit] at hl'
  replace hl' : l' = _ := hl'
  obtain ⟨-, hserves, hcommittable⟩ := Layer.admission_eq_some_iff.mp hadm
  obtain ⟨-, hδ, -⟩ := Consensus.committable?_eq_some hcommittable
  obtain ⟨-, -, -, -, -, -, hidle⟩ := hr.exists_stores hl
  obtain ⟨ds, he⟩ := Execution.of_run (l.commit tx c host (some .renamed)) w.disk
  rw [hcommit] at he
  have hr' := hr.move (.commit tx c host (some .renamed) hl he)
  obtain ⟨i, F, hs, hF, hmir, hfree, -⟩ := hr'.exists_stores (l := l') rfl
  have hinterrupted : Interrupted l tx c.intentHash δ l' (host.clock 0) := by
    constructor
    · exact Layer.sameValue_of_not_stale (by simp [hstale])
    · rw [hl']
      exact hnext
    · rw [hl']
      simp [Layer.halt, Layer.follow, Layer.noted, hidle hserves]
    · rw [hl']
      rfl
    · rw [hl']
      rfl
  exact ⟨δ, i, F, hδ, hinterrupted, hs, hF, hmir, hfree⟩

/-! ## A gift that is interrupted -/

/-- A delta that moves a part of the second balance to an account that was not there. -/
def payment : Delta := ⟨Table.ofList [("bob", ⟨.ofInt64 20, .ofInt64 15⟩),
  ("dave", ⟨.ofInt64 0, .ofInt64 5⟩)]⟩

/-- An approved decision for it. -/
def paymentDecision : Consensus := ⟨"payment", "payment", true, [], [], "", some payment⟩

/-- A delta that moves a part of the first balance to an account that was not there. -/
def gift : Delta := ⟨Table.ofList [("alice", ⟨.ofInt64 100, .ofInt64 60⟩),
  ("carol", ⟨.ofInt64 0, .ofInt64 40⟩)]⟩

/-- An approved decision for it. -/
def giftDecision : Consensus := ⟨"gift", "gift", true, [], [], "", some gift⟩

/-- A host whose clock goes on, and which lists names backwards. -/
def ticking : Host := ⟨fun n => UInt64.ofNat n, List.reverse, List.reverse_perm, .calm⟩

/-- The balances with the payment. -/
def paidBalances : Balances := State.writeChanges twoState.balances payment.changes.entries

/-- The balances with the payment and the gift. -/
def givenBalances : Balances := State.writeChanges paidBalances gift.changes.entries

/-- The ledger of two accounts, when the payment was committed. -/
structure Paid (past : List Disk) (w : World) (l : Layer) : Prop where
  story : Story "data" twoBalances .empty past w
  layer : w.layer = some l
  commits : w.commits = [("t0", payment)]
  acknowledged : w.acknowledged = ["t0"]
  balances : l.balances = paidBalances
  version : l.state.version = 1
  lastTx : l.state.lastTx = some "t0"
  unretired : l.unretired = [⟨.commit, "t0", payloadHash "t0" "payment" payment, 1⟩]
  endedInLog : l.endedInLog = 1
  awaits : l.Awaits w.disk ["t1"]

/-- What is seen of a call by which the only transaction was committed. -/
theorem observed_of_reflects {g : Balances} {δ : Delta} {s : State} {tx : String} {ds : List Disk}
    (hs : Reflects g (ds.foldl (Commits.observe δ) []) s) (hversion : s.version = 1)
    (hlast : s.lastTx = some tx) : ds.foldl (Commits.observe δ) [] = [(tx, δ)] := by
  obtain ⟨added, hadded⟩ := Commits.exists_observed δ [] ds
  rw [List.nil_append] at hadded
  have hlength := hs.version.symm.trans hversion
  have htx := hs.lastTx.symm.trans hlast
  rw [hadded, List.length_map] at hlength
  obtain ⟨t, rfl⟩ := List.length_eq_one_iff.mp hlength
  rw [hadded] at htx ⊢
  obtain rfl : t = tx := Option.some.inj htx
  rfl

/-- The ledger of two accounts, when it was just opened. -/
theorem exists_opened : ∃ past, Story "data" twoBalances .empty past
    ⟨foundedDisk twoState, some (twoLayer "data" 8), [], []⟩ := by
  have hfound : Story "data" twoBalances .empty _ _ :=
    .found Disk.sound_empty (found_empty "data" genesis_twoBalances)
  have hrec := recover_founded (load_twoState (pathOf "data" stateName)) rfl (.still 0)
    (by decide : 0 < 8)
  obtain ⟨ds, he⟩ := Execution.exists_of_run hrec
  have hopened := hfound.recover 8 (.still 0) he
  have hnone : ds.foldl (Commits.observe .empty) [] = [] :=
    List.eq_nil_of_length_eq_zero (hopened.run.reflects rfl rfl).version.symm
  simp only [World.after, hnone] at hopened
  exact ⟨_, hopened⟩

theorem exists_paid : ∃ past w l, Paid past w l := by
  obtain ⟨past, hopened⟩ := exists_opened
  have hawaits : (twoLayer "data" 8).Awaits (foundedDisk twoState) ["t0", "t1"] :=
    Layer.awaits_twoLayer "data" (by decide) (by decide) (by decide) (by decide)
  have hcommittable : paymentDecision.committable? = some payment := by decide
  have hfresh : (twoLayer "data" 8).isStale payment = false := Layer.isStale_eq_false (by decide)
  obtain ⟨next, log, log', d, l, hnext, hl, hrun, hrest⟩ :=
    Layer.run_commit ticking hawaits hcommittable hfresh
  obtain ⟨ds, he⟩ := Execution.exists_of_run hrun
  have hpaid := hopened.commit "t0" paymentDecision ticking none rfl he
  have hstate : l.state = next := by rw [hl, Layer.state_concluded]
  obtain ⟨hversion, hlast⟩ := State.version_applied hnext
  rw [← hstate] at hversion hlast
  refine ⟨_, _, l, hpaid, rfl, ?_, rfl, ?_, hversion, hlast, ?_, ?_, hrest⟩
  · exact observed_of_reflects (hpaid.run.reflects rfl hrest.serves) hversion hlast
  · rw [l.agreed, hstate, State.balances_applied hnext]
    rfl
  · rw [hl]
    exact (Layer.ended_concluded log log' rfl).2
  · rw [hl]
    exact (Layer.ended_concluded log log' rfl).1

/-- The same ledger, when the gift was interrupted after that with its state in the state file. -/
structure GiftInterrupted (past : List Disk) (w : World) (l l' : Layer) (d : Disk) : Prop
    extends Paid past w l where
  commit : (l.commit "t1" giftDecision ticking (some .renamed)).run w.disk =
    ((l', .error (.interrupted CrashPoint.renamed.message)), d)

theorem exists_giftInterrupted : ∃ past w l l' d, GiftInterrupted past w l l' d := by
  obtain ⟨past, w, l, h⟩ := exists_paid
  have hstale : l.isStale gift = false := Layer.isStale_eq_false (by rw [h.balances]; decide)
  have hadmission : l.admission "t1" giftDecision = .ok (some gift) :=
    Layer.admission_eq_some_iff.mpr ⟨h.awaits.good "t1" (by simp), h.awaits.serves, by decide⟩
  obtain ⟨l', d, hrun⟩ := Layer.run_commit_renamed ticking hadmission hstale
    (h.awaits.unused "t1" (by simp)) (Nat.lt_of_succ_le h.awaits.version) h.awaits.tidy
  exact ⟨past, w, l, l', d, h, hrun⟩

namespace GiftInterrupted

variable {past : List Disk} {w : World} {l l' : Layer} {d : Disk}

/-- What is left on the disk. -/
theorem left (h : GiftInterrupted past w l l' d) : ∃ i F, Interrupted l "t1" "gift" gift l' 0 ∧
    Stores d i F ∧ F.Legible ∧ l'.Mirrors i F ∧ ¬ Hindered F := by
  obtain ⟨δ, i, F, hδ, hint, hs, hF, hmir, hfree⟩ :=
    interrupted_of_commit h.story.run h.layer h.commit
  obtain rfl : gift = δ := Option.some.inj hδ
  exact ⟨i, F, hint, hs, hF, hmir, hfree⟩

theorem given (h : GiftInterrupted past w l l' d) : l'.balances = givenBalances := by
  obtain ⟨i, F, hint, -⟩ := h.left
  rw [l'.agreed, State.balances_applied hint.applied, ← l.agreed, h.balances]
  rfl

/-- The story goes on to the interruption, and nothing but the payment is acknowledged. -/
theorem exists_story (h : GiftInterrupted past w l l' d) : ∃ past' w',
    Story "data" twoBalances .empty past' w' ∧ w'.disk = d ∧ w'.layer = some l' ∧
      w'.acknowledged = ["t0"] ∧ w.commits <+: w'.commits := by
  obtain ⟨ds, he⟩ := Execution.exists_of_run h.commit
  refine ⟨_, _, h.story.commit "t1" giftDecision ticking (some .renamed) h.layer he, rfl, rfl,
    h.acknowledged, ?_⟩
  obtain ⟨added, hadded⟩ := Commits.exists_observed gift w.commits ds
  exact ⟨_, hadded.symm⟩

/-- The state file with the gift can be read. -/
theorem isReadable (h : GiftInterrupted past w l l' d) : l'.state.IsReadable := by
  obtain ⟨i, F, hint, -⟩ := h.left
  constructor
  · rw [← l'.agreed, h.given]
    decide
  · intro u hu
    have hrecord := Option.some.inj (hu.symm.trans (State.undo_applied hint.applied))
    have hprior : u.priorBalances = Table.ofList (gift.changes.entries.map fun p =>
      (p.1, l.state.balances.get? p.1)) := congrArg Undo.priorBalances hrecord
    unfold Undo.IsReadable
    rw [hprior, ← l.agreed, h.balances]
    decide

theorem load (h : GiftInterrupted past w l l' d) :
    (loadState "data").run.run d = (.ok l'.state, d) := by
  obtain ⟨i, F, -, hs, hF, hmir, -⟩ := h.left
  obtain ⟨j, hj⟩ := hs.state
  rw [run_loadState (by rw [Disk.read, hj]), hF.intact.load_bytes, ← hmir.state,
    if_pos h.isReadable]

/-- A recovery rolls the gift back, and takes it back from the state. -/
theorem recovered (h : GiftInterrupted past w l l' d) {threshold : Nat} {host : Host}
    {l'' : Layer} {report : Recovery.Report} {e : Disk}
    (hrun : (recover "data" threshold host).run.run d = (.ok (l'', report), e)) :
    l''.state = { l.state with undo := none } ∧ report.discarded = ["t1"] ∧
      report.reverted = ["t1"] := by
  obtain ⟨i, F, hint, hs, hF, hmir, -⟩ := h.left
  obtain ⟨_, G, -, hG, hmir', -⟩ := h.story.run.exists_stores h.layer
  have hrooted : l.state.merkleRoot = l.state.computedRoot := hmir'.state ▸ hG.intact.rooted
  obtain ⟨u, hu, htx, hreverted⟩ := reverted_applied hrooted hint.applied
  have hopen : (openIn F.log).map Entry.tx = ["t1"] := by rw [← hmir.begun, hint.begun]; rfl
  obtain ⟨hdiscarded, -⟩ := restores_of_recover hs hF hrun
  obtain ⟨hstate, hback⟩ := reverted_of_recover hs hF (hmir.state ▸ hu)
    (by rw [hopen, htx]; exact List.mem_singleton_self _) hrun
  refine ⟨?_, hdiscarded.trans hopen, by rw [hback, htx]⟩
  rw [hstate, ← hmir.state, hreverted]

end GiftInterrupted

/-! ## What recovery accepts -/

/-- Wherever the calls of a run were stopped, if the state file can be read, recovery has no
reason to refuse what they left behind: all its checks pass. It succeeds, unless a directory
had the name of a temporary file when the ledger was founded, and then it never does. -/
theorem exists_recover_iff (hS : Story dir b start past w)
    (hload : (loadState dir).run.run w.disk = (.ok s, d)) :
    (∃ c, (Recovery.examine dir).run.run w.disk = (.ok c, w.disk)) ∧
      ∀ threshold host,
        (∃ l report e, (recover dir threshold host).run.run w.disk = (.ok (l, report), e)) ↔
          ∀ name, isTempName name = true → Disk.isDirect name = true →
            start.nodes.get? name ≠ some .directory := by
  obtain ⟨i, F, hs, hF, hblocks⟩ := hS.exists_stores
  refine ⟨run_examine dir hs hF (isReadable_of_load hs hF hload), fun threshold host =>
    ⟨?_, fun hfree => ?_⟩⟩
  · rintro ⟨l, report, e, hrun⟩ name htemp hdirect hdir
    have hblocked : F.blocked name := by
      rw [hblocks]
      exact hdir
    exact not_recover_of_hindered hs hF ⟨name, htemp, hdirect, hblocked⟩ hrun
  · obtain ⟨p, e, hrun⟩ := hS.exists_recover hload hfree threshold host
    exact ⟨p.1, p.2, e, hrun⟩

/-- The gift has got into the state file, and all checks of a recovery pass. It takes the gift
back. -/
theorem exists_recover_iff_giftInterrupted : ∃ past w s,
    Story "data" twoBalances .empty past w ∧ w.acknowledged = ["t0"] ∧
    (loadState "data").run.run w.disk = (.ok s, w.disk) ∧
    s.balances.get? "carol" = some (.ofInt64 40) ∧
    (∃ c, (Recovery.examine "data").run.run w.disk = (.ok c, w.disk)) ∧
    ∃ l report e, (recover "data" 8 ticking).run.run w.disk = (.ok (l, report), e) ∧
      l.balances.get? "carol" = none ∧ report.reverted = ["t1"] := by
  obtain ⟨past, w, l, l', d, h⟩ := exists_giftInterrupted
  obtain ⟨past', w', hS, rfl, -, hacknowledged, -⟩ := h.exists_story
  obtain ⟨hexamine, hrecover⟩ := exists_recover_iff hS h.load
  obtain ⟨l'', report, e, hrun⟩ := (hrecover 8 ticking).mpr fun _ _ _ => nofun
  obtain ⟨hstate, -, hreverted⟩ := h.recovered hrun
  refine ⟨past', w', l'.state, hS, hacknowledged, h.load, ?_, hexamine, l'', report, e, hrun, ?_,
    hreverted⟩
  · rw [← l'.agreed, h.given]
    decide
  · rw [l''.agreed, hstate]
    show l.state.balances.get? "carol" = none
    rw [← l.agreed, h.balances]
    decide

/-! ## A directory in the way -/

/-- A directory in which there is another one, with the name of a temporary file. -/
def hinderedDisk : Disk := ⟨Table.empty.insert "state.json.old.tmp" .directory, 0, true⟩

theorem sound_hinderedDisk : hinderedDisk.Sound := by
  have hfile : ∀ {n i c}, hinderedDisk.nodes.get? n ≠ some (.file i c) := by
    intro n i c h
    rw [hinderedDisk, Table.get?_insert] at h
    split at h <;> exact absurd h nofun
  exact ⟨fun h => absurd h hfile, fun h => absurd h hfile⟩

/-- A ledger can be founded there, and its state file can be read, but it is never recovered. -/
theorem not_recover_hinderedDisk : ∃ d,
    Story "data" twoBalances hinderedDisk [d] ⟨d, none, [], []⟩ ∧
      (loadState "data").run.run d = (.ok twoState, d) ∧
      ∀ threshold host, ¬ ∃ l report e,
        (recover "data" threshold host).run.run d = (.ok (l, report), e) := by
  have hfree : ∀ n, n ≠ "state.json.old.tmp" → hinderedDisk.nodes.get? n = none := fun n hn => by
    simp [hinderedDisk, Ne.symm hn]
  have hnone : ∀ n ∈ [stateName, logName, retiredName, tempName "genesis"],
      hinderedDisk.nodes.get? n = none := by
    simp only [List.forall_mem_cons]
    refine ⟨?_, ?_, ?_, ?_, nofun⟩ <;> exact hfree _ (by decide)
  obtain ⟨d, hfound⟩ := exists_found "data" sound_hinderedDisk genesis_twoBalances hnone
  obtain ⟨-, i, hs⟩ := stores_of_found sound_hinderedDisk hfound
  have hF := legible_founded genesis_twoBalances hinderedDisk
  obtain ⟨j, hj⟩ := hs.state
  have hread : d.read stateName = .ok twoState.bytes := by rw [Disk.read, hj]; rfl
  refine ⟨d, .found sound_hinderedDisk hfound, ?_, fun threshold host => ?_⟩
  · rw [run_loadState hread, load_twoState]
  · rintro ⟨l, report, e, hrun⟩
    refine not_recover_of_hindered hs hF ⟨"state.json.old.tmp", by decide, by decide, ?_⟩ hrun
    show hinderedDisk.nodes.get? "state.json.old.tmp" = some .directory
    simp [hinderedDisk]

end LedgerGate.Ledger

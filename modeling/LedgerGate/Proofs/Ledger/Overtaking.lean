import LedgerGate.Proofs.Ledger.Interleaving
import LedgerGate.Proofs.Ledger.Tampering

/-!
# Calls that are overtaken

A state file has a record of the transaction that led to it, and of no other. A call that stopped
when its state was in the state file can be taken back only as long as no other call puts a state
there, and nothing keeps those from it that were past their first section. What holds between any
two sections is `Coexist`. From it follows what a recovery leaves of calls on different accounts
(`recover_of_sections`): nothing of a transaction that is not committed, unless its state got into
the state file and another one after it.
-/

namespace LedgerGate.Ledger

open Log (Entry openIn endedIn committedIn)
open Function (update)

variable {ι : Type} [DecidableEq ι]

/-! ## Calls on different accounts -/

/-- Whether no two calls change one account. -/
def Apart (requests : ι → Request) : Prop :=
  ∀ i j, i ≠ j → ∀ δ ∈ (requests i).decision.delta, ∀ ε ∈ (requests j).decision.delta,
    ∀ a ∈ δ.accounts, a ∉ ε.accounts

/-- Whether of all calls balances have what some wrote, and else what there was at first. -/
def Shows (requests : ι → Request) (first : Balances) (done : List ι) (b : Balances) : Prop :=
  ∀ i, ∀ δ ∈ (requests i).decision.delta, ∀ p ∈ δ.changes.entries,
    b.get? p.1 = if i ∈ done then some p.2.after.normalize else first.get? p.1

section

variable {requests : ι → Request} {first : Balances} {done : List ι} {i : ι} {δ : Delta}
  {s next : State} {t intentHash payload : String}

theorem shows_nil (requests : ι → Request) (first : Balances) : Shows requests first [] first :=
  fun _ _ _ _ _ => (if_neg List.not_mem_nil).symm

/-- Applying the delta of a call adds this call to those that are shown. -/
theorem Shows.applied (hs : Shows requests first done s.balances) (hapart : Apart requests)
    (hδ : (requests i).decision.delta = some δ)
    (hn : s.applied t intentHash payload δ = .ok next) :
    Shows requests first (done ++ [i]) next.balances := by
  intro j ε hε p hp
  rw [State.balances_applied hn, State.get?_writeChanges (Table.pairwise_ne δ.changes.sorted)]
  by_cases hj : j = i
  · subst hj
    obtain rfl := Option.some.inj (hδ.symm.trans hε)
    rw [(Table.lookup_eq_some_iff δ.changes.sorted).mpr hp, if_pos (by simp)]
    rfl
  · have hother : p.1 ∉ δ.accounts := hapart j i hj ε hε δ hδ p.1 (List.mem_map_of_mem hp)
    have hnone : Table.lookup p.1 δ.changes.entries = none := Table.lookup_eq_none_iff.mpr hother
    rw [hnone, Option.map_none, Option.none_or, hs j ε hε p hp]
    simp [hj]

/-- The balances of a call that is not shown are those at first. -/
theorem Shows.of_eq {b : Balances} (hs : Shows requests first done b)
    (hδ : (requests i).decision.delta = some δ) (hi : i ∉ done) {p : String × Change}
    (hp : p ∈ δ.changes.entries) : b.of p.1 = first.of p.1 := by
  rw [Balances.of, Balances.of, hs i δ hδ p hp, if_neg hi]

end

/-! ## What holds between two sections -/

/-- Whether a delta is the one that a request may apply. -/
structure Request.Offers (q : Request) (δ : Delta) : Prop where
  tx : checkTx q.tx = .ok ()
  delta : q.decision.committable? = some δ

/-- Whether a delta that a request may apply was made on balances. -/
structure Request.Fits (q : Request) (b : Balances) (δ : Delta) : Prop extends q.Offers δ where
  fresh : ∀ p ∈ δ.changes.entries, (b.of p.1).sameValue p.2.before = true

theorem Request.Offers.delta_eq {q : Request} {δ : Delta} (h : q.Offers δ) :
    q.decision.delta = some δ := (Consensus.committable?_eq_some h.delta).2.1

theorem Request.Offers.isSound {q : Request} {δ : Delta} (h : q.Offers δ) : (q.entry δ).IsSound :=
  ⟨(checkTx_ok h.tx).1, (checkTx_ok h.tx).2, utf8ByteSize_textDigest_le _⟩

namespace Phase

/-- Whether a call in this phase will change the state no more. -/
def IsOver : Phase → Prop
  | ended _ | returned _ => True
  | _ => False

theorem IsOver.ne_begun {p : Phase} (hp : p.IsOver) : ∀ δ, p ≠ .begun δ := by
  rintro δ rfl
  exact hp

/-- What is known of the delta of a call in this phase. -/
def Knows (q : Request) (first : Balances) : Phase → Prop
  | admitted δ | holding δ => q.Offers δ
  | checked δ | begun δ => q.Fits first δ
  | waiting | ended _ | returned _ => True

theorem knows_of_isOver {p : Phase} (q : Request) (first : Balances) (h : p.IsOver) :
    p.Knows q first := by
  cases p with
  | ended | returned => trivial
  | _ => exact h.elim

end Phase

/-- Whether the transaction of a call is open, or its state got into the state file. -/
def System.Owns (s : System ι) (i : ι) : Prop := i ∈ s.installed ∨ ∃ δ, s.phase i = .begun δ

/-- What holds of files between any two sections, if balances were `first` when the calls
started. -/
structure Coexist (requests : ι → Request) (first : Balances) (s : System ι) (F : Files) :
    Prop where
  legible : F.Legible
  knows : ∀ i, (s.phase i).Knows (requests i) first
  settled : ∀ i ∈ s.installed, (s.phase i).IsOver
  opened : ∀ i δ, s.phase i = .begun δ → (requests i).entry δ ∈ openIn F.log
  /-- A transaction whose state got into the state file was committed, or it is still open. -/
  kept : ∀ i ∈ s.installed, (requests i).tx ∈ (openIn F.log).map Entry.tx ∨
    s.layer.HasCommitted F (requests i).tx
  distinct : ∀ i j, s.Owns i → s.Owns j → (requests i).tx = (requests j).tx → i = j
  shows : Shows requests first s.installed F.state.balances
  unrecorded : s.installed = [] →
    ∀ u, F.state.undo = some u → u.tx ∉ (openIn F.log).map Entry.tx
  /-- The record takes the last of the new states back. -/
  recorded : ∀ done i, s.installed = done ++ [i] → ∃ u, F.state.undo = some u ∧
    u.tx = (requests i).tx ∧ Shows requests first done (F.state.reverted u).balances

namespace Coexist

variable {requests : ι → Request} {first : Balances} {s : System ι} {F F' : Files} {i : ι}
  {δ : Delta} {l : Layer} {log : Log.File}

theorem knows_of (h : Coexist requests first s F) {p : Phase} (hp : s.phase i = p) :
    p.Knows (requests i) first := hp ▸ h.knows i

theorem fits (h : Coexist requests first s F) (hbegun : s.phase i = .begun δ) :
    (requests i).Fits first δ := h.knows_of hbegun

theorem notMem_installed (h : Coexist requests first s F) {p : Phase} (hp : s.phase i = p)
    (hnot : ¬ p.IsOver) : i ∉ s.installed := fun hi => hnot (hp ▸ h.settled i hi)

theorem open_of_begun (h : Coexist requests first s F) (hbegun : s.phase i = .begun δ) :
    (requests i).tx ∈ (openIn F.log).map Entry.tx :=
  List.mem_map_of_mem (f := Entry.tx) (h.opened i δ hbegun)

theorem tx_mem_ids (h : Coexist requests first s F) (hi : s.Owns i) : (requests i).tx ∈ F.ids := by
  rcases hi with hi | ⟨δ, hbegun⟩
  · rcases h.kept i hi with hopen | hcommitted
    · exact Files.mem_ids_iff.mpr (.inl hopen)
    · exact hcommitted.mem_ids
  · exact Files.mem_ids_iff.mpr (.inl (h.open_of_begun hbegun))

/-- The record in the state file is not that of a transaction which is still to be applied. -/
theorem undo_ne (h : Coexist requests first s F) (hbegun : s.phase i = .begun δ) :
    ∀ u, F.state.undo = some u → u.tx ≠ (requests i).tx := by
  intro u hu heq
  rcases List.eq_nil_or_concat' s.installed with hnil | ⟨done, j, hlast⟩
  · exact h.unrecorded hnil u hu (heq ▸ h.open_of_begun hbegun)
  · obtain ⟨v, hv, hvt, -⟩ := h.recorded done j hlast
    obtain rfl := Option.some.inj (hu.symm.trans hv)
    have hj : j ∈ s.installed := by simp [hlast]
    obtain rfl := h.distinct j i (.inl hj) (.inr ⟨δ, hbegun⟩) (hvt.symm.trans heq)
    exact h.notMem_installed hbegun (fun h => h) hj

/-- A call comes to another phase. -/
theorem advance (h : Coexist requests first s F) {p : Phase} (hp : p.Knows (requests i) first)
    (hbegun : ∀ δ, p = .begun δ → (requests i).entry δ ∈ openIn F.log ∧
      ∀ j, s.Owns j → (requests j).tx ≠ (requests i).tx)
    (hsettled : i ∈ s.installed → p.IsOver) : Coexist requests first (s.advance i p) F := by
  have howns : ∀ j, (s.advance i p).Owns j → s.Owns j ∨ j = i ∧ ∃ δ, p = .begun δ := by
    rintro j (hj | ⟨δ, hδ⟩)
    · exact .inl (.inl hj)
    · by_cases hji : j = i
      · rw [hji, phase_advance] at hδ
        exact .inr ⟨hji, δ, hδ⟩
      · exact .inl (.inr ⟨δ, phase_advance_ne s p hji ▸ hδ⟩)
  exact { h with
    knows := forall_phase_advance (P := fun j q => q.Knows (requests j) first) hp
      fun j _ => h.knows j
    settled := forall_phase_advance (P := fun j q => j ∈ s.installed → q.IsOver) hsettled
      fun j _ => h.settled j
    opened := forall_phase_advance
      (P := fun j q => ∀ δ, q = .begun δ → (requests j).entry δ ∈ openIn F.log)
      (fun δ hδ => (hbegun δ hδ).1) fun j _ => h.opened j
    distinct := fun j k hj hk htx => by
      rcases howns j hj with hold | ⟨rfl, δ, hδ⟩ <;> rcases howns k hk with hold' | ⟨rfl, ε, hε⟩
      · exact h.distinct j k hold hold' htx
      · exact absurd htx ((hbegun ε hε).2 j hold)
      · exact absurd htx.symm ((hbegun δ hδ).2 k hold')
      · rfl }

/-- A call comes to a phase in which its transaction is not open. -/
theorem leave (h : Coexist requests first s F) {p : Phase} (hp : p.Knows (requests i) first)
    (hnot : ∀ δ, p ≠ .begun δ) (hi : i ∉ s.installed) : Coexist requests first (s.advance i p) F :=
  h.advance hp (fun δ hδ => absurd hδ (hnot δ)) fun hmem => absurd hmem hi

/-- A call comes to a phase in which it is over. -/
theorem settle (h : Coexist requests first s F) {p : Phase} (hp : p.IsOver) :
    Coexist requests first (s.advance i p) F :=
  h.advance (Phase.knows_of_isOver _ _ hp) (fun δ hδ => absurd hδ (hp.ne_begun δ)) fun _ => hp

/-- What leaves the state and the transactions alone does not matter. -/
theorem undisturbed (h : Coexist requests first s F) (hu : s.layer.Undisturbed F l F') (d : Disk) :
    Coexist requests first { s with disk := d, layer := l } F' :=
  { h with
    legible := h.legible.repairs hu.repairs
    opened := fun j ε hj => hu.opened ▸ h.opened j ε hj
    kept := fun j hj => hu.opened ▸ (h.kept j hj).imp_right (hu.committed _)
    shows := hu.state ▸ h.shows
    unrecorded := hu.opened ▸ hu.state ▸ h.unrecorded
    recorded := hu.state ▸ h.recorded }

/-- A transaction of a new identifier begins. -/
theorem begin (h : Coexist requests first s F) (log : Log.File) {e : Entry} (hop : e.op = .begin)
    (hsound : e.IsSound) (hnew : e.tx ∉ F.ids) (d : Disk) :
    Coexist requests first { s with disk := d, layer := s.layer.noted log e }
      { F with log := F.log ++ [e] } := by
  have hopen : openIn (F.log ++ [e]) = openIn F.log ++ [e] :=
    Log.openIn_append_begin hop fun hend => hnew (Files.mem_ids_iff.mpr (.inr (.inl hend)))
  exact { h with
    legible := h.legible.begin hsound hop hnew
    opened := fun j δ hj => by
      rw [hopen]
      exact List.mem_append_left _ (h.opened j δ hj)
    kept := fun j hj => by
      rw [hopen, List.map_append, List.mem_append]
      exact (h.kept j hj).imp .inl fun hcommitted => hcommitted.noted log e
    unrecorded := fun hnil u hu hmem => by
      rw [hopen, List.map_append, List.mem_append] at hmem
      refine hmem.elim (h.unrecorded hnil u hu) fun hmem => hnew ?_
      exact (List.mem_singleton.mp hmem : u.tx = e.tx) ▸ h.legible.undo_known u hu }

/-- The new state of a transaction takes the place of the one in the state file. -/
theorem install (h : Coexist requests first s F) (hapart : Apart requests)
    (hsettled : (s.phase i).IsOver) (hδ : (requests i).decision.delta = some δ)
    (hopen : (requests i).tx ∈ (openIn F.log).map Entry.tx)
    (hne : ∀ j, s.Owns j → (requests j).tx ≠ (requests i).tx) {intentHash payload : String}
    {next : State} (hlegible : Files.Legible { F with state := next })
    (hn : F.state.applied (requests i).tx intentHash payload δ = .ok next) (d : Disk) :
    Coexist requests first
      { s with disk := d, layer := s.layer.follow next, installed := s.installed ++ [i] }
      { F with state := next } := by
  have howns : ∀ j, System.Owns { s with
      disk := d, layer := s.layer.follow next, installed := s.installed ++ [i] } j →
      s.Owns j ∨ j = i := by
    rintro j (hj | hj)
    · exact (List.mem_append.mp hj).imp .inl List.mem_singleton.mp
    · exact .inl (.inr hj)
  exact { h with
    legible := hlegible
    settled := fun j hj => by
      rcases List.mem_append.mp hj with hj | hj
      · exact h.settled j hj
      · exact List.mem_singleton.mp hj ▸ hsettled
    kept := fun j hj => by
      rcases List.mem_append.mp hj with hj | hj
      · exact h.kept j hj
      · exact .inl (List.mem_singleton.mp hj ▸ hopen)
    distinct := fun j k hj hk htx => by
      rcases howns j hj with hold | rfl <;> rcases howns k hk with hold' | rfl
      · exact h.distinct j k hold hold' htx
      · exact absurd htx (hne j hold)
      · exact absurd htx.symm (hne k hold')
      · rfl
    shows := h.shows.applied hapart hδ hn
    unrecorded := fun hnil => absurd hnil (by simp)
    recorded := fun done j hlast => by
      have hlast : s.installed ++ [i] = done ++ [j] := hlast
      obtain ⟨rfl, hj⟩ := List.append_inj' hlast rfl
      obtain rfl := (List.cons.inj hj).1
      obtain ⟨u, hu, hut, hrev⟩ := reverted_applied h.legible.intact.rooted hn
      exact ⟨u, hu, hut, hrev ▸ h.shows⟩ }

/-- A transaction ends that is not to be applied any more. -/
theorem close (h : Coexist requests first s F) {e : Entry} (hop : e.op ≠ .begin)
    (hlegible : Files.Legible { F with log := F.log ++ [e] })
    (hbegun : ∀ j ε, s.phase j = .begun ε → (requests j).tx ≠ e.tx)
    (hinstalled : ∀ j ∈ s.installed, (requests j).tx = e.tx → e.op = .commit) (d : Disk) :
    Coexist requests first { s with disk := d, layer := s.layer.noted log e }
      { F with log := F.log ++ [e] } := by
  have hopen : openIn (F.log ++ [e]) = _ := Log.openIn_append_terminal hop
  have hstill : ∀ b ∈ openIn F.log, b.tx ≠ e.tx → b ∈ openIn (F.log ++ [e]) := fun b hb hne => by
    rw [hopen]
    exact List.mem_filter.mpr ⟨hb, decide_eq_true hne⟩
  exact { h with
    legible := hlegible
    opened := fun j ε hj => hstill _ (h.opened j ε hj) (hbegun j ε hj)
    kept := fun j hj => by
      rcases h.kept j hj with hmem | hcommitted
      · by_cases htx : (requests j).tx = e.tx
        · exact .inr (htx ▸ Layer.hasCommitted_noted (hinstalled j hj htx))
        · obtain ⟨b, hb, hbt⟩ := List.mem_map.mp hmem
          exact .inl (hbt ▸ List.mem_map_of_mem (hstill b hb fun heq => htx (hbt ▸ heq)))
      · exact .inr (hcommitted.noted log e)
    unrecorded := fun hnil u hu hmem => by
      obtain ⟨b, hb, hbt⟩ := List.mem_map.mp hmem
      rw [hopen] at hb
      exact h.unrecorded hnil u hu (hbt ▸ List.mem_map_of_mem (List.mem_filter.mp hb).1) }

/-! ## The section that changes the state -/

/-- Of the calls whose transaction is open or in the state file, none else has the identifier of one
that has begun. -/
theorem ne_of_begun (h : Coexist requests first s F) (hbegun : s.phase i = .begun δ) {p : Phase}
    (hp : p.IsOver) : ∀ j, (s.advance i p).Owns j → (requests j).tx ≠ (requests i).tx := by
  have hi : i ∉ s.installed := h.notMem_installed hbegun fun h => h
  rintro j (hj | ⟨ε, hε⟩) htx
  · obtain rfl := h.distinct j i (.inl hj) (.inr ⟨δ, hbegun⟩) htx
    exact hi hj
  · by_cases hji : j = i
    · rw [hji, phase_advance] at hε
      exact hp.ne_begun ε hε
    · rw [phase_advance_ne s p hji] at hε
      exact hji (h.distinct j i (.inr ⟨ε, hε⟩) (.inr ⟨δ, hbegun⟩) htx)

/-- A call whose state gets into the state file, and which has come to a phase. -/
theorem applied (h : Coexist requests first s F) (hapart : Apart requests)
    (hbegun : s.phase i = .begun δ) {next : State}
    (hn : F.state.applied (requests i).tx (requests i).decision.intentHash
      ((requests i).entry δ).payloadHash δ = .ok next) {p : Phase} (hp : p.IsOver) (d : Disk) :
    Coexist requests first
      ({ s with
        disk := d, layer := s.layer.follow next, installed := s.installed ++ [i] }.advance i p)
      { F with state := next } := by
  have hfits := h.fits hbegun
  have hi : i ∉ s.installed := h.notMem_installed hbegun fun h => h
  have hfresh : ∀ q ∈ δ.changes.entries, (F.state.balances.of q.1).sameValue q.2.before = true :=
    fun q hq => by
      rw [h.shows.of_eq hfits.delta_eq hi hq]
      exact hfits.fresh q hq
  have hconserves := (Consensus.committable?_eq_some hfits.delta).2.2
  have hsettled : Coexist requests first (s.advance i p) F := h.settle hp
  exact hsettled.install hapart (by rwa [phase_advance]) hfits.delta_eq (h.open_of_begun hbegun)
    (h.ne_of_begun hbegun hp) (h.legible.apply (h.opened i δ hbegun) rfl hconserves hfresh hn) hn d

/-- What holds between sections holds whatever the section that changes the state comes to. -/
theorem conclude (h : Coexist requests first s F) (hapart : Apart requests)
    (hbegun : s.phase i = .begun δ) (hstate : s.layer.state = F.state) {c : Layer.Committed}
    (hc : s.layer.Concludes ((requests i).entry δ) ((requests i).host.clock 1)
      (requests i).decision.intentHash δ F c F')
    (d : Disk) : Coexist requests first (s.afterApply i δ d c) F' := by
  have hsound := (h.fits hbegun).isSound
  have hopen := h.open_of_begun hbegun
  rw [System.afterApply]
  cases hc with
  | stopped reason f =>
    have hhalted := h.undisturbed (Layer.undisturbed_halt s.layer F reason) d
    rw [installedWith_of_eq (l := s.layer.halt reason) rfl]
    exact hhalted.settle trivial
  | @rolledBack log f hid hname =>
    have hne := h.ne_of_begun hbegun (p := .returned (.error f)) trivial
    have hsettled : Coexist requests first (s.advance i (.returned (.error f))) F :=
      h.settle trivial
    have hrest : (restore F.state
        (F.log ++
          [((requests i).entry δ).ending .rollback ((requests i).host.clock 1)])).IsIntact := by
      rw [Files.restore_rollback (by simp) (h.undo_ne hbegun)]
      exact h.legible.restored_intact
    rw [installedWith_of_eq (Layer.state_noted ..)]
    exact hsettled.close (by simp)
      (h.legible.close (hsound.ending .rollback _) (by simp) hopen hrest)
      (fun j ε hj => hne j (.inr ⟨ε, hj⟩)) (fun j hj htx => absurd htx (hne j (.inl hj))) d
  | @installed next reason f hn =>
    have hinstalled := h.applied hapart hbegun (hstate ▸ hn) (p := .returned (.error f)) trivial d
    rw [installedWith_of_applied hn rfl]
    exact hinstalled.undisturbed (Layer.undisturbed_halt (s.layer.follow next) _ reason) d
  | @committed next log hn hid hname =>
    have hne := h.ne_of_begun hbegun (p := .ended δ) trivial
    have hinstalled := h.applied hapart hbegun (hstate ▸ hn) (p := .ended δ) trivial d
    rw [installedWith_of_applied hn (Layer.state_noted ..)]
    exact hinstalled.close (by simp)
      (hinstalled.legible.commit (hsound.ending .commit _) rfl hopen h.legible.intact.rooted
        (hstate ▸ hn))
      (fun j ε hj => hne j (.inr ⟨ε, hj⟩)) (fun _ _ _ => rfl) d

end Coexist

/-! ## Sections -/

/-- Whether what holds between sections holds of the files on the disk. -/
def System.Coexists (requests : ι → Request) (first : Balances) (s : System ι) : Prop :=
  ∃ n F, Stores s.disk n F ∧ s.layer.Mirrors n F ∧ Coexist requests first s F

section

variable {requests : ι → Request} {first : Balances} {s s' : System ι}

/-- The section that logs the beginning of a transaction keeps what holds between sections. -/
theorem Coexist.afterBegin {n : Nat} {F : Files} {i : ι} {δ : Delta} {r : Except Fault Layer}
    {d : Disk} (h : Coexist requests first s F) (hs : Stores s.disk n F) (hl : s.layer.Mirrors n F)
    (hchecked : s.phase i = .checked δ)
    (hyields : (s.layer.logStep ((requests i).entry δ)).run.Yields (FileOp.MayFail n) s.disk r d) :
    (s.afterBegin i (requests i) δ d r).Coexists requests first := by
  have hi : i ∉ s.installed := h.notMem_installed hchecked fun h => h
  have hfits : (requests i).Fits first δ := h.knows_of hchecked
  rcases Layer.yields_logStep hs hl hyields with ⟨log, rfl, hok, hid, hname, hs'⟩ | ⟨⟨f, rfl⟩, rfl⟩
  · have hnew : (requests i).tx ∉ F.ids := fun hmem =>
      Layer.isUsed_of_refuseStep hok (hl.isUsed_iff.mpr hmem)
    have hend : (requests i).tx ∉ endedIn F.log := fun hend =>
      hnew (Files.mem_ids_iff.mpr (.inr (.inl hend)))
    have hl' := hl.noted_begin (e := (requests i).entry δ) rfl hend hid hname
    have hbegun := h.begin log rfl hfits.isSound hnew d
    rw [System.afterBegin]
    split
    · have hhalted :=
        hbegun.undisturbed (Layer.undisturbed_halt _ _ CrashPoint.beginLogged.message) d
      exact ⟨n, _, hs', hl'.halt _, hhalted.settle trivial⟩
    · refine ⟨n, _, hs', hl', hbegun.advance hfits (fun ε hε => ?_) fun hmem => absurd hmem hi⟩
      obtain rfl := Phase.begun.inj hε
      refine ⟨?_, fun j hj htx => hnew (htx ▸ h.tx_mem_ids hj)⟩
      rw [Log.openIn_append_begin rfl hend]
      exact List.mem_append_right _ (List.mem_singleton_self _)
  · exact ⟨n, F, hs, hl, h.settle trivial⟩

/-- Each section keeps what holds between sections. -/
theorem Section.coexists (hstep : Section requests s s') (hapart : Apart requests)
    (h : s.Coexists requests first) : s'.Coexists requests first := by
  obtain ⟨n, F, hs, hl, h⟩ := h
  cases hstep with
  | @enter i hwaiting =>
    refine ⟨n, F, hs, hl, ?_⟩
    have hi : i ∉ s.installed := h.notMem_installed hwaiting fun h => h
    match hadm : s.layer.admission (requests i).tx (requests i).decision with
    | .error f | .ok none => exact h.settle trivial
    | .ok (some δ) =>
      obtain ⟨htx, -, hδ⟩ := Layer.admission_eq_some_iff.mp hadm
      exact h.leave ⟨htx, hδ⟩ nofun hi
  | @take i δ hadmitted _ =>
    have hi : i ∉ s.installed := h.notMem_installed hadmitted fun h => h
    have hoffers : (requests i).Offers δ := h.knows_of hadmitted
    exact ⟨n, F, hs, hl, h.leave (p := .holding δ) hoffers nofun hi⟩
  | @check i δ hholding =>
    refine ⟨n, F, hs, hl, ?_⟩
    have hi : i ∉ s.installed := h.notMem_installed hholding fun h => h
    have hoffers : (requests i).Offers δ := h.knows_of hholding
    split
    · exact h.settle trivial
    · next hstale =>
      have hfresh := Layer.sameValue_of_not_stale hstale
      rw [s.layer.agreed, hl.state] at hfresh
      refine h.leave (p := .checked δ) ⟨hoffers, fun p hp => ?_⟩ nofun hi
      rw [← h.shows.of_eq hoffers.delta_eq hi hp]
      exact hfresh p hp
  | begin hchecked hyields => exact h.afterBegin hs hl hchecked (hl.id ▸ hyields)
  | @apply i δ c d hbegun hyields =>
    obtain ⟨F', hs', hc⟩ := Layer.yields_applyBegun hs hl (hl.id ▸ hyields)
    exact ⟨n, F', hs', hc.mirrors (h.fits hbegun).isSound hl,
      h.conclude hapart hbegun hl.state hc d⟩
  | @finish i δ c d hended hrun =>
    obtain ⟨j, F', hs', hl', hu⟩ := Layer.outcome_of_finish hs h.legible hl hrun
    exact ⟨j, F', hs', hl', (h.undisturbed hu d).settle trivial⟩

/-- What holds between sections holds after any of them. -/
theorem Sections.coexists (hsteps : Sections requests s s') (hapart : Apart requests)
    (h : s.Coexists requests first) : s'.Coexists requests first := by
  induction hsteps with
  | refl => exact h
  | tail _ hstep ih => exact hstep.coexists hapart ih

end

/-! ## What files restore of a call -/

/-- The entries of the complete lines of a disk's log of the retired. -/
def retiredEntries (d : Disk) : List Entry := Log.entriesIn ((d.content? retiredName).getD [])

/-- The transactions of which a complete line of one of the logs says that they were committed. -/
def committedOn (d : Disk) : List String :=
  committedIn (logEntries d) ++ committedIn (retiredEntries d)

theorem Stores.retiredEntries_of_sound {d : Disk} {n : Nat} {F : Files} (hs : Stores d n F)
    (hsound : ∀ e ∈ F.retired, e.IsSound) (htorn : Log.IsTorn F.retiredTail)
    (hmissing : F.hasRetired = false → F.retired = []) : retiredEntries d = F.retired := by
  rw [Ledger.retiredEntries, hs.retired]
  split
  · exact Log.entriesIn_lines (Log.fits_of_sound hsound) htorn.1
  · next hnot =>
    rw [hmissing (by simpa using hnot)]
    rfl

theorem Stores.retiredEntries {d : Disk} {n : Nat} {F : Files} (hs : Stores d n F)
    (hF : F.Legible) : retiredEntries d = F.retired :=
  hs.retiredEntries_of_sound hF.retired_sound hF.retired_torn fun h => (hF.retired_missing h).1

theorem mem_committedOn {d : Disk} {n : Nat} {F : Files} {l : Layer} {t : String}
    (hs : Stores d n F) (hF : F.Legible) (h : l.HasCommitted F t) : t ∈ committedOn d := by
  rw [committedOn, hs.logEntries hF, hs.retiredEntries hF]
  obtain ⟨e, hop, rfl, he⟩ := h
  have hmem : ∀ es : List Entry, e ∈ es → e.tx ∈ committedIn es := fun es he =>
    List.mem_map_of_mem (List.mem_filter.mpr ⟨he, decide_eq_true hop⟩)
  exact List.mem_append.mpr (he.imp (fun he => hmem _ he.1) (hmem _))

section

variable {requests : ι → Request} {first : Balances} {s : System ι} {F : Files} {dir : String}
  {b : Balances} {w : World} {l : Layer}

/-- What holds between sections holds when no call has done anything. -/
theorem coexists_start (requests : ι → Request) (hr : Run dir b w) (hl : w.layer = some l)
    (hserves : l.fault = none) :
    (System.start w.disk l : System ι).Coexists requests l.balances := by
  obtain ⟨n, F, hs, hF, hmir, hidle⟩ := hr.sound.layer l hl
  have hclosed : openIn F.log = [] := hmir.begun.symm.trans (hidle hserves)
  have hshows : Shows requests l.balances [] F.state.balances := by
    rw [← hmir.state, ← l.agreed]
    exact shows_nil requests l.balances
  exact ⟨n, F, hs, hmir, {
    legible := hF.toLegible
    knows := fun _ => trivial
    settled := nofun
    opened := nofun
    kept := nofun
    distinct := by rintro i j (hi | ⟨δ, hδ⟩) <;> cases ‹_›
    shows := hshows
    unrecorded := fun _ u _ => by simp [hclosed]
    recorded := fun done i hlast => absurd hlast (by simp [System.start]) }⟩

/-- Of a call that is not committed, files restore what there was before it, unless another one was
installed after it. -/
theorem Coexist.restored (h : Coexist requests first s F) {i : ι}
    (hnot : ¬ s.layer.HasCommitted F (requests i).tx) :
    ∀ δ ∈ (requests i).decision.delta, ∀ p ∈ δ.changes.entries, F.restored.balances.get? p.1 =
      if i ∈ s.installed.dropLast then some p.2.after.normalize else first.get? p.1 := by
  intro δ hδ p hp
  rcases List.eq_nil_or_concat' s.installed with hnil | ⟨done, j, hlast⟩
  · have hrest : F.restored = F.state := restore_of_closed (h.unrecorded hnil)
    rw [hrest, h.shows i δ hδ p hp, hnil]
    rfl
  · obtain ⟨u, hu, hut, hshows⟩ := h.recorded done j hlast
    rw [hlast, List.dropLast_concat]
    by_cases hopen : u.tx ∈ (openIn F.log).map Entry.tx
    · have hrest : F.restored = F.state.reverted u := restore_of_open hu hopen
      rw [hrest, hshows i δ hδ p hp]
    · have hrest : F.restored = F.state := restore_of_closed fun v hv => by
        obtain rfl := Option.some.inj (hu.symm.trans hv)
        exact hopen
      -- The last of the new states is that of a transaction that was committed.
      have hij : i ≠ j := by
        rintro rfl
        exact (h.kept i (by simp [hlast])).elim (hut ▸ hopen) hnot
      rw [hrest, h.shows i δ hδ p hp, hlast]
      simp [hij]

end

/-! ## A gift and a bill -/

theorem Tidy.noTempFiles {d : Disk} (h : Tidy none d) : Recovery.NoTemps d := by
  intro name hname
  rw [Bool.eq_false_iff]
  intro htemp
  exact (Recovery.mem_names.mp hname).1 (h.noTemps name htemp (Option.some_ne_none name))

/-- A delta that moves a part of the second balance to an account that was not there. -/
def bill : Delta := ⟨Table.ofList [("bob", ⟨.ofInt64 20, .ofInt64 15⟩),
  ("dave", ⟨.ofInt64 0, .ofInt64 5⟩)]⟩

/-- An approved decision for it. -/
def billDecision : Consensus := ⟨"bill", "bill", true, [], [], "", some bill⟩

/-- A gift that is to stop when its state is in the state file, and a bill. -/
def giftAndBill : Bool → Request
  | false => ⟨"t1", giftDecision, .still 0, some .renamed⟩
  | true => ⟨"t2", billDecision, .still 0, none⟩

theorem apart_giftAndBill : Apart giftAndBill := by
  intro i j hij δ hδ ε hε
  cases i <;> cases j <;> cases hδ <;> cases hε <;> first | exact absurd rfl hij | decide

/-- The files of a ledger of two accounts. -/
theorem stores_twoState : Stores (foundedDisk twoState) 0 (.founded twoState .empty) := by
  obtain ⟨-, i, hs⟩ := stores_of_found Disk.sound_empty (found_empty "data" genesis_twoBalances)
  have hid := hs.log.symm.trans (foundedDisk_log twoState)
  obtain ⟨rfl, -⟩ := Node.file.inj (Option.some.inj hid)
  exact hs

theorem mirrors_twoLayer (dir : String) (threshold : Nat) :
    (twoLayer dir threshold).Mirrors 0 (.founded twoState .empty) where
  id := rfl
  name := rfl
  logTail := rfl
  retiredTail := rfl
  state := rfl
  begun := rfl
  ended := fun t => by simp [twoLayer, Files.founded, endedIn]
  unretired_mem := nofun
  unretired := nofun
  endedInLog := rfl

/-- The gift and the bill can both begin before the state is changed. -/
theorem exists_begun : ∃ (s : System Bool) (F : Files),
    Sections giftAndBill (.start (foundedDisk twoState) (twoLayer "data" 8)) s ∧
      s.phase false = .begun gift ∧ s.phase true = .begun bill ∧ s.installed = [] ∧
      s.layer.isBegun "t2" = true ∧ Stores s.disk 0 F ∧ s.layer.Mirrors 0 F ∧ Tidy none s.disk ∧
      F.state = twoState ∧ F.retired = [] ∧ F.logTail = [] ∧ F.hasRetired = false ∧
      F.log = [(giftAndBill false).entry gift, (giftAndBill true).entry bill] := by
  obtain ⟨log, s₁, hsteps₁, hphase₁, hinstalled₁, hlayer₁, hs₁, hl₁, htidy₁⟩ :=
    sections_to_begun giftAndBill (i := false) (δ := gift)
      (s := .start (foundedDisk twoState) (twoLayer "data" 8))
      stores_twoState (mirrors_twoLayer "data" 8) (tidy_foundedDisk twoState) rfl
      (Layer.admission_eq_some_iff.mpr ⟨by decide, rfl, by decide⟩) nofun
      (Layer.isStale_eq_false (by decide)) rfl nofun
  have hadm : s₁.layer.admission "t2" billDecision = .ok (some bill) := by
    rw [hlayer₁]
    exact Layer.admission_eq_some_iff.mpr ⟨by decide, rfl, by decide⟩
  have hfree : ∀ j, ∀ a ∈ (s₁.phase j).held, a ∉ bill.accounts := by
    rw [hphase₁]
    intro j
    cases j
    · decide
    · nofun
  have hstale : s₁.layer.isStale bill = false := by
    rw [hlayer₁]
    exact Layer.isStale_eq_false (by
      show ∀ p ∈ bill.changes.entries, p.2.before = twoState.balances.of p.1
      decide)
  have hnew : s₁.layer.isUsed "t2" = false := by
    rw [hlayer₁]
    exact Layer.isUsed_noted rfl (by decide)
  obtain ⟨log', s₂, hsteps₂, hphase₂, hinstalled₂, hlayer₂, hs₂, hl₂, htidy₂⟩ :=
    sections_to_begun giftAndBill (i := true) (δ := bill) hs₁ hl₁ htidy₁
      (by rw [hphase₁]; rfl) hadm hfree hstale hnew nofun
  refine ⟨s₂, _, hsteps₁.trans hsteps₂, ?_, ?_, hinstalled₂.trans hinstalled₁, ?_, hs₂, hl₂, htidy₂,
    rfl, rfl, rfl, rfl, rfl⟩
  · rw [hphase₂, hphase₁]
    rfl
  · rw [hphase₂]
    rfl
  · rw [hlayer₂]
    simp [Layer.noted, Layer.isBegun, Request.entry, giftAndBill]

/-- What is left when the gift stopped in the state file and the bill was committed after it. -/
theorem exists_overtaken : ∃ s : System Bool,
    Sections giftAndBill (.start (foundedDisk twoState) (twoLayer "data" 8)) s ∧
      s.installed = [false, true] ∧ s.layer.state.IsReadable ∧ Tidy none s.disk ∧
      "t1" ∉ committedOn s.disk := by
  obtain ⟨s, F, hsteps, hgift, hbill, hinstalled, hopen, hs, hl, htidy, hstate, hretired, htail,
    hmissing, hlog⟩ := exists_begun
  have hreadable : F.state.IsReadable := by
    rw [hstate]
    decide
  obtain ⟨next, s₁, hn, hsection, hphase₁, hinstalled₁, hlayer₁, hs₁, hl₁, htidy₁⟩ :=
    section_of_renamed giftAndBill hs hl htidy hgift (by rw [hstate]; decide) rfl
  have hversion : next.version < State.maxVersion := by
    rw [(State.version_applied hn).1, hstate]
    decide
  obtain ⟨last, s₂, hn', hsection', -, hinstalled₂, hlayer₂, hs₂, htidy₂⟩ :=
    section_of_committed giftAndBill (i := true) (δ := bill) hs₁ hl₁ htidy₁
      (by rw [hphase₁]; exact hbill) (by rw [hlayer₁]; exact hopen) hversion rfl
  refine ⟨s₂, (hsteps.tail hsection).tail hsection', ?_, ?_, htidy₂, ?_⟩
  · rw [hinstalled₂, hinstalled₁, hinstalled]
    rfl
  · rw [hlayer₂]
    have hnext : next.IsReadable := Files.isReadable_applied hreadable (by decide) hn
    exact Files.isReadable_applied hnext (by decide) hn'
  · -- Of the three entries only the last one is an end.
    have hsound : ∀ e ∈ F.log ++ [((giftAndBill true).entry bill).ending .commit 0],
        e.IsSound := by
      have hgift : (giftAndBill false).Offers gift := ⟨by decide, by decide⟩
      have hbill : (giftAndBill true).Offers bill := ⟨by decide, by decide⟩
      rw [hlog]
      simp only [List.cons_append, List.nil_append, List.forall_mem_cons]
      exact ⟨hgift.isSound, hbill.isSound, hbill.isSound.ending .commit _, nofun⟩
    have hentries : logEntries s₂.disk = _ :=
      hs₂.logEntries_of_sound hsound (htail ▸ Log.isTorn_nil)
    have hnone : retiredEntries s₂.disk = [] := by
      rw [retiredEntries, hs₂.retired, hmissing]
      rfl
    rw [committedOn, hentries, hnone, hlog]
    simp [committedIn, Request.entry, giftAndBill]

/-! ## What a recovery leaves of a call -/

section

variable {requests : ι → Request} {s : System ι} {dir : String} {b : Balances} {w : World}
  {l : Layer}

/-- After any sections of calls on different accounts, a recovery that succeeds leaves nothing of a
transaction that is not committed: each account that it changes has what it had before. It is
otherwise only where the state of the transaction got into the state file and was not the last one:
then all that it wrote stays. -/
theorem recover_of_sections {threshold : Nat} {host : Host} {l' : Layer}
    {report : Recovery.Report} {d : Disk} (hr : Run dir b w) (hl : w.layer = some l)
    (hserves : l.fault = none) (hapart : Apart requests)
    (hsteps : Sections requests (.start w.disk l) s)
    (hrec : (recover dir threshold host).run.run s.disk = (.ok (l', report), d)) :
    ∀ i, (requests i).tx ∉ committedOn s.disk →
      ∀ δ ∈ (requests i).decision.delta, ∀ p ∈ δ.changes.entries, l'.balances.get? p.1 =
        if i ∈ s.installed.dropLast then some p.2.after.normalize else l.balances.get? p.1 := by
  obtain ⟨n, F, hs, -, h⟩ := hsteps.coexists hapart (coexists_start requests hr hl hserves)
  obtain ⟨-, hrepaired⟩ := Recovery.outcome_of_run hs h.legible hrec
  intro i hnot
  rw [l'.agreed, hrepaired.state]
  exact h.restored fun hcommitted => hnot (mem_committedOn hs h.legible hcommitted)

end

/-- The gift is not committed, and yet a recovery leaves it in the ledger: the bill overtook it. -/
theorem recover_of_sections_overtaken : ∃ (w : World) (l l' : Layer) (s : System Bool)
    (report : Recovery.Report) (d : Disk), Run "data" twoBalances w ∧ w.layer = some l ∧
      Sections giftAndBill (.start w.disk l) s ∧
      (recover "data" 8 (.still 0)).run.run s.disk = (.ok (l', report), d) ∧
      (giftAndBill false).tx ∉ committedOn s.disk ∧
      l.balances.get? "alice" = some (.ofInt64 100) ∧
      l'.balances.get? "alice" = some (.ofInt64 60) := by
  obtain ⟨past, hS⟩ := exists_opened
  have hopened := hS.run
  obtain ⟨s, hsteps, hinstalled, hreadable, htidy, hnot⟩ := exists_overtaken
  obtain ⟨n, F, hs, hl, hF⟩ :=
    hsteps.coexists apart_giftAndBill (coexists_start giftAndBill hopened rfl rfl)
  obtain ⟨⟨l', report⟩, d, hrun⟩ := Recovery.exists_recover 8 (.still 0) hs hF.legible
    (hl.state ▸ hreadable) (htidy.noTempFiles.not_hindered hs)
  have hleft := recover_of_sections hopened rfl rfl apart_giftAndBill hsteps hrun false hnot gift
    rfl ("alice", ⟨.ofInt64 100, .ofInt64 60⟩) (by decide)
  rw [hinstalled] at hleft
  exact ⟨_, _, l', s, report, d, hopened, rfl, hsteps, hrun, hnot, by decide, hleft⟩

end LedgerGate.Ledger

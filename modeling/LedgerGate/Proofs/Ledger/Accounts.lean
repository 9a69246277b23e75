import LedgerGate.Proofs.Ledger.Operations

/-!
# What committed transactions say of the files

After the transaction that is open has been taken back from the state, the state is the first
one with the committed transactions written over it (`Accounts`). Which transactions are
committed is seen from the outside (`Commits.observe`): those whose end was ever a complete
line of the log.
-/

namespace LedgerGate.Ledger

open Log (Entry openIn endedIn committedIn)

/-! ## Committed transactions -/

/-- Committed transactions in order, each with its delta. -/
abbrev Commits := List (String × Delta)

namespace Commits

/-- The identifiers of the transactions. -/
def ids (h : Commits) : List String := h.map Prod.fst

/-- The balance of an account, if it has one: what was written last, or what there was at
first. -/
def balance? (g : Balances) (h : Commits) (account : String) : Option Decimal :=
  h.foldl (fun v p =>
    match p.2.changes.get? account with
    | some c => some c.after.normalize
    | none => v) (g.get? account)

/-- The transactions after a look at entries: what they commit that was not committed before
is put at the end, with the delta of the call that is running. -/
def note (δ : Delta) (h : Commits) (es : List Entry) : Commits :=
  h ++ ((committedIn es).filter fun t => !h.ids.contains t).map fun t => (t, δ)

end Commits

/-- The transactions after a look at the log of a disk. -/
def Commits.observe (δ : Delta) (h : Commits) (d : Disk) : Commits := h.note δ (logEntries d)

theorem Commits.note_of_subset {δ : Delta} {h : Commits} {es : List Entry}
    (hs : ∀ t ∈ committedIn es, t ∈ h.ids) : h.note δ es = h := by
  rw [note, List.filter_eq_nil_iff.mpr fun t ht => by simp [hs t ht], List.map_nil,
    List.append_nil]

theorem Commits.note_append {δ : Delta} {h : Commits} {es fs : List Entry}
    (hs : ∀ t ∈ committedIn es, t ∈ h.ids) : h.note δ (es ++ fs) = h.note δ fs := by
  rw [note, Log.committedIn_append, List.filter_append,
    List.filter_eq_nil_iff.mpr fun t ht => by simp [hs t ht], List.nil_append, note]

theorem Commits.note_commit {δ : Delta} {h : Commits} {e : Entry} (he : e.op = .commit)
    (hn : e.tx ∉ h.ids) : h.note δ [e] = h ++ [(e.tx, δ)] := by
  simp [note, committedIn, he, hn]

theorem Commits.note_of_ne {δ : Delta} {h : Commits} {e : Entry} (he : e.op ≠ .commit) :
    h.note δ [e] = h := by
  simp [note, committedIn, he]

/-- Whether a state is the first one with committed transactions written over it. -/
structure Reflects (g : Balances) (h : Commits) (s : State) : Prop where
  balances : ∀ account, s.balances.get? account = h.balance? g account
  version : s.version = h.length
  lastTx : s.lastTx = h.ids.getLast?

theorem Commits.balance?_concat (g : Balances) (h : Commits) (t : String) (δ : Delta)
    (account : String) : balance? g (h ++ [(t, δ)]) account =
      ((δ.changes.get? account).map fun c => c.after.normalize).or (h.balance? g account) := by
  rw [balance?, List.foldl_append]
  simp only [List.foldl_cons, List.foldl_nil]
  cases δ.changes.get? account <;> rfl

/-- What applying a delta makes of a state. -/
theorem Reflects.applied {g : Balances} {h : Commits} {s next : State}
    {t intentHash payload : String} {δ : Delta} (hs : Reflects g h s)
    (hn : s.applied t intentHash payload δ = .ok next) :
    Reflects g (h ++ [(t, δ)]) next := by
  unfold State.applied at hn
  split at hn
  · exact absurd hn nofun
  · obtain rfl := Except.ok.inj hn
    refine ⟨fun account => ?_, ?_, ?_⟩
    · rw [Commits.balance?_concat, ← hs.balances]
      exact State.get?_writeChanges (Table.pairwise_ne δ.changes.sorted) _ _
    · simp [hs.version]
    · simp [Commits.ids]

/-- Whether a state is an intact one with the total of the first balances. -/
structure Genuine (g : Balances) (s : State) : Prop extends s.IsIntact where
  sumTo : s.balances.SumTo g.total

/-! ## Accounts -/

/-- Whether what the files hold comes from the first balances and the committed transactions. -/
structure Accounts (g : Balances) (h : Commits) (F : Files) : Prop where
  nodup : h.ids.Nodup
  committed : ∀ t ∈ committedIn F.log, t ∈ h.ids
  /-- No identifier of a committed transaction is forgotten. -/
  kept : ∀ t ∈ h.ids, t ∈ endedIn F.log ∨ t ∈ F.retired.map Entry.tx
  sumTo : F.state.balances.SumTo g.total
  restored_sumTo : F.restored.balances.SumTo g.total
  reflects : Reflects g h F.restored

variable {g : Balances} {h : Commits} {F F' : Files} {δ : Delta}

theorem Files.Coherent.genuine (hF : F.Coherent (Accounts g) h) : Genuine g F.state :=
  ⟨hF.intact, hF.fits.sumTo⟩

/-- No open transaction is committed. -/
theorem Accounts.notMem_ids (hF : F.Legible) (ha : Accounts g h F) {t : String}
    (hopen : t ∈ (openIn F.log).map Entry.tx) : t ∉ h.ids := by
  intro ht
  rcases ha.kept t ht with hended | hretired
  · exact Log.notMem_endedIn_of_open hopen hended
  · obtain ⟨b, hb, rfl⟩ := List.mem_map.mp hopen
    exact hF.open_unretired b hb hretired

theorem Accounts.kept_append (ha : Accounts g h F) (e : Entry) :
    ∀ t ∈ h.ids, t ∈ endedIn (F.log ++ [e]) ∨ t ∈ F.retired.map Entry.tx := fun t ht =>
  (ha.kept t ht).imp_left fun hm => by
    rw [Log.endedIn_append]
    exact List.mem_append_left _ hm

/-- An entry that is no commit commits nothing. -/
theorem Accounts.committed_append (ha : Accounts g h F) {e : Entry} (hop : e.op ≠ .commit) :
    ∀ t ∈ committedIn (F.log ++ [e]), t ∈ h.ids := fun t ht =>
  ha.committed t (by simpa [Log.committedIn_append, committedIn, hop] using ht)

theorem Accounts.note_append (ha : Accounts g h F) {e : Entry} (hop : e.op ≠ .commit) :
    h.note δ (F.log ++ [e]) = h := by
  rw [Commits.note_append ha.committed, Commits.note_of_ne hop]

/-- Repairs commit nothing. -/
instance : Lasting (Accounts g) where
  repair := by
    intro h F F' hF ha hr
    have hsum : F'.restored.balances.SumTo g.total := hr.restored.symm ▸ ha.restored_sumTo
    have hreflects : Reflects g h F'.restored := hr.restored.symm ▸ ha.reflects
    cases hr with
    | tail ht => exact { ha with }
    | retire hes ht =>
      exact { ha with
        kept := fun t hmem => (ha.kept t hmem).imp_right fun hm => by
          rw [List.map_append]
          exact List.mem_append_left _ hm }
    | compact hret =>
      exact { ha with
        committed := fun t ht => by
          rw [Log.committedIn_openIn] at ht
          exact absurd ht List.not_mem_nil
        kept := fun t ht => .inr ((ha.kept t ht).elim (hret t) id)
        restored_sumTo := hsum
        reflects := hreflects }
    | rollback he hop hopen hundo =>
      exact { ha with
        committed := ha.committed_append (by simp [hop])
        kept := ha.kept_append _
        restored_sumTo := hsum
        reflects := hreflects }
    | takeBack hu hopen =>
      exact { ha with
        sumTo := restore_of_open hu hopen ▸ ha.restored_sumTo
        restored_sumTo := hsum
        reflects := hreflects }

instance : Noting (Commits.note δ) (Accounts g) where
  look ha := Commits.note_of_subset ha.committed

/-- A transaction is committed by the line of its end, and its delta is in the state by then. -/
theorem Accounts.commit (hF : F.Legible) (ha : Accounts g h F) {e : Entry} {s : State}
    {intentHash payload : String} (hop : e.op = .commit)
    (hopen : e.tx ∈ (openIn F.log).map Entry.tx) (hroot : s.merkleRoot = s.computedRoot)
    (hn : s.applied e.tx intentHash payload δ = .ok F.state) :
    Accounts g (h ++ [(e.tx, δ)]) { F with log := F.log ++ [e] } := by
  have hids : Commits.ids (h ++ [(e.tx, δ)]) = h.ids ++ [e.tx] := by simp [Commits.ids]
  have hnew := ha.notMem_ids hF hopen
  have hbefore : F.restored = { s with undo := none } := Files.restore_applied hroot hopen hn
  obtain ⟨u, hu, hut, -⟩ := reverted_applied hroot hn
  have hafter : Files.restored { F with log := F.log ++ [e] } = F.state :=
    Files.restore_close (by simp [hop]) hu hut
  have hold : Reflects g h s := by
    have := ha.reflects
    rw [hbefore] at this
    exact ⟨this.balances, this.version, this.lastTx⟩
  refine { ha with
    nodup := ?_
    committed := fun t ht => ?_
    kept := fun t ht => ?_
    restored_sumTo := hafter.symm ▸ ha.sumTo
    reflects := hafter.symm ▸ hold.applied hn }
  · rw [hids, List.nodup_append]
    exact ⟨ha.nodup, by simp, by simpa using fun t ht (heq : t = e.tx) => hnew (heq ▸ ht)⟩
  · rw [hids, List.mem_append]
    rw [Log.committedIn_append, List.mem_append] at ht
    exact ht.imp (ha.committed t) fun ht => by simpa [committedIn, hop] using ht
  · rw [hids, List.mem_append] at ht
    rcases ht with ht | ht
    · exact ha.kept_append e t ht
    · left
      rw [Log.endedIn_append, Log.endedIn_terminal (by simp [hop])]
      exact List.mem_append_right _ ht

/-- A commit makes of the state what applying its delta makes of it, and no more. -/
instance : Recording (Commits.note δ) (Accounts g) δ where
  change := by
    intro h F F' hF ha hc
    cases hc with
    | @begin e he hop hnew =>
      have hrest := hF.restored_begin hop hnew
      rw [ha.note_append (by simp [hop])]
      exact { ha with
        committed := ha.committed_append (by simp [hop])
        kept := ha.kept_append e
        restored_sumTo := hrest.symm ▸ ha.restored_sumTo
        reflects := hrest.symm ▸ ha.reflects }
    | @apply e intentHash next hopen hpayload hclosed hconserves hfresh hn =>
      have hbefore : F.restored = F.state := restore_of_closed hclosed
      have hafter : Files.restored { F with state := next } = { F.state with undo := none } :=
        Files.restore_applied hF.intact.rooted (List.mem_map_of_mem hopen) hn
      have hreflects := hbefore ▸ ha.reflects
      rw [Commits.note_of_subset ha.committed]
      exact { ha with
        sumTo := State.balances_applied hn ▸ ha.sumTo.writeChanges hconserves hfresh
        restored_sumTo := hafter.symm ▸ ha.sumTo
        reflects := hafter.symm ▸ ⟨hreflects.balances, hreflects.version, hreflects.lastTx⟩ }
    | @commit e s intentHash payload he hop hopen hroot hn =>
      rw [Commits.note_append ha.committed, Commits.note_commit hop (ha.notMem_ids hF hopen)]
      exact ha.commit hF hop hopen hroot hn

end LedgerGate.Ledger

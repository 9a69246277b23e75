import LedgerGate.Proofs.Ledger.Record
import LedgerGate.Proofs.Ledger.Stored
import LedgerGate.Proofs.Log.History

/-!
# The files of a ledger together

What the state file and the two logs hold is `Files`. All that is ever done to them is a
`Files.Repair`, by a recovery or a compaction, or a `Files.Change`, by a commit. Whatever is
done, a recovery that can read the state has no reason to refuse the files (`Files.Legible`),
and no repair changes what it leaves: the state (`Files.Repair.restored`) and the identifiers
that have been used (`Files.Repair.mem_ids`).

What is said of the files besides depends on what was seen of them before, and on the purpose.
It is a predicate on files and on what was seen, and it has to survive what is done to the files
(`Lasting`, `Noting`, `Recording`).
-/

namespace LedgerGate

/-- Whether a state has numbers, a root and balances as a stored one has them. -/
structure State.IsIntact (s : State) : Prop where
  storable : s.IsStorable
  rooted : s.merkleRoot = s.computedRoot
  nonneg : ∀ d ∈ s.balances.values, d.isNegative = false

/-- Such a state is loaded from its bytes if all balances in it can be read again, and only
then. -/
theorem State.IsIntact.load_bytes {s : State} (h : s.IsIntact) (path : String) :
    State.load path s.bytes =
      if s.IsReadable then .ok s else .error (.stateMalformed path "not a ledger state") :=
  State.load_bytes h.storable h.rooted h.nonneg

namespace Ledger

open Log (Entry lines openIn endedIn IsTorn IsOrderly CanFollow)

/-! ## Taking back what did not end -/

/-- The state that recovery leaves of a state: the transaction that led to it is taken back if
it is open in the log. -/
def restore (s : State) (log : List Entry) : State :=
  match s.undo with
  | some u => if u.tx ∈ (openIn log).map Entry.tx then s.reverted u else s
  | none => s

theorem restore_of_open {s : State} {log : List Entry} {u : Undo} (hu : s.undo = some u)
    (h : u.tx ∈ (openIn log).map Entry.tx) : restore s log = s.reverted u := by
  simp only [restore, hu, if_pos h]

theorem restore_of_closed {s : State} {log : List Entry}
    (h : ∀ u, s.undo = some u → u.tx ∉ (openIn log).map Entry.tx) : restore s log = s := by
  unfold restore
  split
  · next u hu => exact if_neg (h u hu)
  · rfl

theorem restore_congr {s : State} {log log' : List Entry}
    (h : ∀ u, s.undo = some u →
      (u.tx ∈ (openIn log).map Entry.tx ↔ u.tx ∈ (openIn log').map Entry.tx)) :
    restore s log = restore s log' := by
  unfold restore
  split
  · next u hu => simp only [h u hu]
  · rfl

/-- Taking back what was just applied gives the state from before, without its record. -/
theorem reverted_applied {s next : State} {t intentHash payload : String} {δ : Delta}
    (hroot : s.merkleRoot = s.computedRoot) (hn : s.applied t intentHash payload δ = .ok next) :
    ∃ u, next.undo = some u ∧ u.tx = t ∧ next.reverted u = { s with undo := none } := by
  unfold State.applied at hn
  split at hn
  · exact absurd hn nofun
  · obtain rfl := Except.ok.inj hn
    refine ⟨_, rfl, rfl, ?_⟩
    simp only [State.reverted, State.putBack_writeChanges]
    rw [hroot]
    rfl

/-- A delta that conserves, and that was made on the balances, leads from one intact state to
another. -/
theorem isIntact_applied {s next : State} {t intentHash payload : String} {δ : Delta}
    (hs : s.IsIntact) (hconserves : δ.conserves = .ok ())
    (hfresh : ∀ p ∈ δ.changes.entries, (s.balances.of p.1).sameValue p.2.before = true)
    (hn : s.applied t intentHash payload δ = .ok next) : next.IsIntact := by
  have hsum : s.balances.SumTo s.balances.total := ⟨hs.nonneg, rfl⟩
  have hnonneg : ∀ d ∈ next.balances.values, d.isNegative = false := by
    rw [State.balances_applied hn]
    exact (hsum.writeChanges hconserves hfresh).nonneg
  unfold State.applied at hn
  split at hn
  · exact absurd hn nofun
  · next hversion =>
    obtain rfl := Except.ok.inj hn
    refine ⟨⟨Nat.not_le.mp hversion, fun u hu => ?_⟩, rfl, hnonneg⟩
    obtain rfl := Option.some.inj hu
    exact hs.storable.1

/-! ## Files -/

/-- What the three files of a ledger hold. A line that was not finished may follow the
entries of a log. -/
structure Files where
  state : State
  log : List Entry
  logTail : List UInt8
  retired : List Entry
  retiredTail : List UInt8
  /-- Whether the log of the retired is there. -/
  hasRetired : Bool
  /-- Temporary names that are taken by directories. The ledger makes none of these. -/
  blocked : String → Prop

namespace Files

/-- The state that recovery leaves. -/
def restored (F : Files) : State := restore F.state F.log

/-- The identifiers that have been used. -/
def ids (F : Files) : List String := F.log.map Entry.tx ++ F.retired.map Entry.tx

/-- Whether files make sense together. -/
structure Legible (F : Files) : Prop where
  log_sound : ∀ e ∈ F.log, e.IsSound
  log_torn : IsTorn F.logTail
  retired_sound : ∀ e ∈ F.retired, e.IsSound
  retired_torn : IsTorn F.retiredTail
  retired_missing : F.hasRetired = false → F.retired = [] ∧ F.retiredTail = []
  orderly : IsOrderly F.log
  retired_ended : ∀ e ∈ F.retired, e.op ≠ .begin
  open_unretired : ∀ e ∈ openIn F.log, e.tx ∉ F.retired.map Entry.tx
  /-- The record in the state is that of a transaction of one of the logs. -/
  undo_known : ∀ u, F.state.undo = some u → u.tx ∈ F.ids
  undo_matches : ∀ u, F.state.undo = some u → ∀ e ∈ openIn F.log, e.tx = u.tx →
    F.state.undoMatches u e.payloadHash = true
  intact : F.state.IsIntact
  restored_intact : F.restored.IsIntact

/-- What recoveries and compactions do to files. -/
inductive Repair : Files → Files → Prop
  /-- The torn line behind the log is cut off, or another one is left there. -/
  | tail {F : Files} {tail : List UInt8} : IsTorn tail → Repair F { F with logTail := tail }
  /-- Ends are copied to the log of the retired, which is made if it is not there. -/
  | retire {F : Files} {es : List Entry} {tail : List UInt8} :
    (∀ e ∈ es, e.IsSound ∧ e.op ≠ .begin ∧ e.tx ∈ endedIn F.log) → IsTorn tail →
    Repair F { F with retired := F.retired ++ es, retiredTail := tail, hasRetired := true }
  /-- The log is reduced to the open transactions once all others are retired. -/
  | compact {F : Files} : (∀ t ∈ endedIn F.log, t ∈ F.retired.map Entry.tx) →
    Repair F { F with log := openIn F.log, logTail := [] }
  /-- An open transaction that is not in the state is rolled back. -/
  | rollback {F : Files} {e : Entry} : e.IsSound → e.op = .rollback →
    e.tx ∈ (openIn F.log).map Entry.tx → (∀ u, F.state.undo = some u → u.tx ≠ e.tx) →
    Repair F { F with log := F.log ++ [e] }
  /-- An open transaction is taken back from the state. -/
  | takeBack {F : Files} {u : Undo} : F.state.undo = some u →
    u.tx ∈ (openIn F.log).map Entry.tx → Repair F { F with state := F.state.reverted u }

/-- Any number of repairs, one after another. -/
abbrev Repairs : Files → Files → Prop := Relation.ReflTransGen Repair

/-- A repair that takes nothing back and ends nothing, as those of a compaction. -/
structure Rearrange (F F' : Files) : Prop where
  repair : F.Repair F'
  state : F'.state = F.state
  opened : openIn F'.log = openIn F.log

/-- What a commit of a delta does to files, besides repairs. -/
inductive Change (δ : Delta) : Files → Files → Prop
  /-- A transaction of a new identifier begins. -/
  | begin {F : Files} {e : Entry} : e.IsSound → e.op = .begin → e.tx ∉ F.ids →
    Change δ F { F with log := F.log ++ [e] }
  /-- The delta is applied to the state of the transaction that began with its payload. -/
  | apply {F : Files} {e : Entry} {intentHash : String} {next : State} : e ∈ openIn F.log →
    e.payloadHash = payloadHash e.tx intentHash δ →
    (∀ u, F.state.undo = some u → u.tx ∉ (openIn F.log).map Entry.tx) →
    δ.conserves = .ok () →
    (∀ p ∈ δ.changes.entries, (F.state.balances.of p.1).sameValue p.2.before = true) →
    F.state.applied e.tx intentHash e.payloadHash δ = .ok next →
    Change δ F { F with state := next }
  /-- A transaction that was applied ends. -/
  | commit {F : Files} {e : Entry} {s : State} {intentHash payload : String} : e.IsSound →
    e.op = .commit → e.tx ∈ (openIn F.log).map Entry.tx → s.merkleRoot = s.computedRoot →
    s.applied e.tx intentHash payload δ = .ok F.state →
    Change δ F { F with log := F.log ++ [e] }

variable {F F' : Files} {δ : Delta} {e : Entry}

/-! ## What repairs leave alone -/

/-- The end of a transaction that is not in the state does not change what is restored. -/
theorem restore_rollback {s : State} {log : List Entry} (hop : e.op ≠ .begin)
    (hundo : ∀ u, s.undo = some u → u.tx ≠ e.tx) : restore s (log ++ [e]) = restore s log := by
  refine restore_congr fun u hu => ?_
  rw [Log.openIn_append_terminal hop]
  simp only [List.mem_map, List.mem_filter]
  constructor
  · rintro ⟨b, ⟨hb, -⟩, hbt⟩
    exact ⟨b, hb, hbt⟩
  · rintro ⟨b, hb, hbt⟩
    exact ⟨b, ⟨hb, by simp [hbt, hundo u hu]⟩, hbt⟩

/-- The state that recovery leaves is not changed by a repair. -/
theorem Repair.restored (h : F.Repair F') : F'.restored = F.restored := by
  cases h with
  | tail | retire => rfl
  | compact hret => exact restore_congr fun u _ => by rw [Log.openIn_openIn]
  | rollback he hop hopen hundo => exact restore_rollback (by simp [hop]) hundo
  | @takeBack u hu hopen =>
    have hnone : (F.state.reverted u).undo = none := rfl
    refine (restore_of_closed fun v hv => ?_).trans (restore_of_open hu hopen).symm
    exact absurd (hnone.symm.trans hv) nofun

theorem mem_ids {t : String} :
    t ∈ F.ids ↔ t ∈ F.log.map Entry.tx ∨ t ∈ F.retired.map Entry.tx := List.mem_append

/-- The identifiers that have been used are those of the transactions that are open, have ended
in the log or are retired. -/
theorem mem_ids_iff {t : String} : t ∈ F.ids ↔
    t ∈ (openIn F.log).map Entry.tx ∨ t ∈ endedIn F.log ∨ t ∈ F.retired.map Entry.tx := by
  rw [mem_ids, Log.mem_map_tx_iff, or_assoc]

/-- No identifier is forgotten by a repair, and none is added. -/
theorem Repair.mem_ids (h : F.Repair F') {t : String} : t ∈ F'.ids ↔ t ∈ F.ids := by
  rw [Files.mem_ids, Files.mem_ids]
  cases h with
  | tail | takeBack => rfl
  | @retire es tail hes ht =>
    rw [List.map_append, List.mem_append]
    refine ⟨fun h => ?_, fun h => h.imp_right .inl⟩
    rcases h with h | h | h
    · exact .inl h
    · exact .inr h
    · obtain ⟨e, he, rfl⟩ := List.mem_map.mp h
      exact .inl (Log.mem_map_tx_iff.mpr (.inr (hes e he).2.2))
  | compact hret =>
    constructor
    · exact fun h => h.imp_left fun h => Log.mem_map_tx_iff.mpr (.inl h)
    · rintro (h | h)
      · exact (Log.mem_map_tx_iff.mp h).imp_right (hret t)
      · exact .inr h
  | @rollback e he hop hopen hundo =>
    rw [List.map_append, List.mem_append, List.map_singleton, List.mem_singleton]
    refine ⟨fun h => h.imp_left fun h => h.elim id ?_, fun h => h.imp_left .inl⟩
    rintro rfl
    exact Log.mem_map_tx_iff.mpr (.inl hopen)

theorem Repair.blocked (h : F.Repair F') : F'.blocked = F.blocked := by cases h <;> rfl

theorem Repairs.restored (h : F.Repairs F') : F'.restored = F.restored := by
  induction h with
  | refl => rfl
  | tail _ hstep ih => exact hstep.restored.trans ih

theorem Repairs.mem_ids (h : F.Repairs F') {t : String} : t ∈ F'.ids ↔ t ∈ F.ids := by
  induction h with
  | refl => rfl
  | tail _ hstep ih => exact hstep.mem_ids.trans ih

theorem Repairs.blocked (h : F.Repairs F') : F'.blocked = F.blocked := by
  induction h with
  | refl => rfl
  | tail _ hstep ih => exact hstep.blocked.trans ih

/-- A state that can be read can still be read when a transaction was taken back from it. -/
theorem isReadable_reverted {s : State} {u : Undo} (h : s.IsReadable) (hu : s.undo = some u) :
    (s.reverted u).IsReadable := by
  refine ⟨fun d hd => ?_, fun v hv => absurd hv (Option.not_mem_none v)⟩
  rcases State.mem_values_putBack hd with hd | ⟨p, hp, hpd⟩
  · exact h.1 d hd
  · exact h.2 u hu p.2 (List.mem_map_of_mem hp) d hpd

/-- A state that can be read can still be read when a delta of readable balances was applied. -/
theorem isReadable_applied {s next : State} {tx intentHash payload : String} (hs : s.IsReadable)
    (hδ : ∀ p ∈ δ.changes.entries, p.2.after.normalize.IsReadable)
    (h : s.applied tx intentHash payload δ = .ok next) : next.IsReadable := by
  constructor
  · intro d hd
    rw [State.balances_applied h] at hd
    rcases State.mem_values_writeChanges hd with hd | ⟨p, hp, rfl⟩
    · exact hs.1 d hd
    · exact hδ p hp
  · intro u hu v hv d hd
    obtain rfl := Option.some.inj ((State.undo_applied h).symm.trans hu)
    obtain ⟨p, hp, rfl⟩ := List.mem_map.mp hv
    rw [Table.entries_ofList_map δ.changes fun p => s.balances.get? p.1] at hp
    obtain ⟨q, -, rfl⟩ := List.mem_map.mp hp
    exact hs.1 d (List.mem_map_of_mem (Table.get?_eq_some_iff.mp hd))

/-- A state file that can be read can still be read after a repair. -/
theorem Repair.isReadable (h : F.Repair F') (hF : F.state.IsReadable) : F'.state.IsReadable := by
  cases h with
  | takeBack hu hopen => exact isReadable_reverted hF hu
  | _ => exact hF

theorem Repairs.isReadable (h : F.Repairs F') (hF : F.state.IsReadable) :
    F'.state.IsReadable := by
  induction h with
  | refl => exact hF
  | tail _ hstep ih => exact hstep.isReadable ih

/-! ## Files stay legible -/

theorem Legible.append_sound (hF : F.Legible) (he : e.IsSound) :
    ∀ f ∈ F.log ++ [e], f.IsSound := fun f hf =>
  (List.mem_append.mp hf).elim (hF.log_sound f) fun hf => List.mem_singleton.mp hf ▸ he

theorem mem_ids_append {t : String} (e : Entry) (ht : t ∈ F.ids) :
    t ∈ ids { F with log := F.log ++ [e] } := by
  rw [mem_ids, List.map_append, List.mem_append]
  exact (mem_ids.mp ht).imp_left .inl

/-- An open transaction ends in the log. -/
theorem Legible.close (hF : F.Legible) (he : e.IsSound) (hop : e.op ≠ .begin)
    (hopen : e.tx ∈ (openIn F.log).map Entry.tx)
    (hrest : (restore F.state (F.log ++ [e])).IsIntact) :
    Legible { F with log := F.log ++ [e] } := by
  have hsub : ∀ b ∈ openIn (F.log ++ [e]), b ∈ openIn F.log := fun b hb => by
    rw [Log.openIn_append_terminal hop] at hb
    exact (List.mem_filter.mp hb).1
  exact { hF with
    log_sound := hF.append_sound he
    orderly := Log.isOrderly_concat.mpr ⟨hF.orderly, fun h => absurd h hop, fun _ => hopen⟩
    open_unretired := fun b hb => hF.open_unretired b (hsub b hb)
    undo_known := fun u hu => mem_ids_append e (hF.undo_known u hu)
    undo_matches := fun u hu b hb => hF.undo_matches u hu b (hsub b hb)
    restored_intact := hrest }

/-- Repaired files are legible. -/
theorem Legible.repair (hF : F.Legible) (h : F.Repair F') : F'.Legible := by
  have hrest := h.restored ▸ hF.restored_intact
  cases h with
  | tail ht => exact { hF with log_torn := ht }
  | @retire es tail hes ht =>
    exact { hF with
      retired_sound := fun e he =>
        (List.mem_append.mp he).elim (hF.retired_sound e) fun he => (hes e he).1
      retired_torn := ht
      retired_missing := nofun
      retired_ended := fun e he =>
        (List.mem_append.mp he).elim (hF.retired_ended e) fun he => (hes e he).2.1
      open_unretired := fun b hb hm => by
        rw [List.map_append, List.mem_append] at hm
        rcases hm with hm | hm
        · exact hF.open_unretired b hb hm
        · obtain ⟨e, he, heq⟩ := List.mem_map.mp hm
          exact (Log.mem_openIn.mp hb).2.2 (heq ▸ (hes e he).2.2)
      undo_known := fun u hu => by
        rw [mem_ids, List.map_append, List.mem_append]
        exact (mem_ids.mp (hF.undo_known u hu)).imp_right .inl }
  | compact hret =>
    have hopen : ∀ b ∈ openIn (openIn F.log), b ∈ openIn F.log := fun b hb =>
      (Log.mem_openIn.mp hb).1
    exact { hF with
      log_sound := fun e he => hF.log_sound e (Log.mem_openIn.mp he).1
      log_torn := Log.isTorn_nil
      orderly := hF.orderly.openIn
      open_unretired := fun b hb => hF.open_unretired b (hopen b hb)
      undo_known := fun u hu => (Repair.compact hret).mem_ids.mpr (hF.undo_known u hu)
      undo_matches := fun u hu b hb => hF.undo_matches u hu b (hopen b hb)
      restored_intact := hrest }
  | rollback he hop hopen hundo => exact hF.close he (by simp [hop]) hopen hrest
  | takeBack hu hopen =>
    exact { hF with
      undo_known := nofun
      undo_matches := nofun
      intact := restore_of_open hu hopen ▸ hF.restored_intact
      restored_intact := hrest }

theorem Legible.repairs (hF : F.Legible) (h : F.Repairs F') : F'.Legible := by
  induction h with
  | refl => exact hF
  | tail _ hstep ih => exact ih.repair hstep

/-- A beginning under a new identifier does not change what is restored. -/
theorem Legible.restored_begin (hF : F.Legible) (hop : e.op = .begin) (hnew : e.tx ∉ F.ids) :
    restored { F with log := F.log ++ [e] } = F.restored := by
  have hend : e.tx ∉ endedIn F.log := fun h =>
    hnew (mem_ids.mpr (.inl (Log.mem_map_tx_iff.mpr (.inr h))))
  refine restore_congr fun u hu => ?_
  rw [Log.openIn_append_begin hop hend, List.map_append, List.mem_append, List.map_singleton,
    List.mem_singleton]
  refine or_iff_left fun heq => hnew ?_
  exact heq ▸ hF.undo_known u hu

theorem Legible.begin (hF : F.Legible) (he : e.IsSound) (hop : e.op = .begin)
    (hnew : e.tx ∉ F.ids) : Legible { F with log := F.log ++ [e] } := by
  obtain ⟨hlog, hretired⟩ := not_or.mp (mem_ids.not.mp hnew)
  have hend : e.tx ∉ endedIn F.log := fun h => hlog (Log.mem_map_tx_iff.mpr (.inr h))
  have hsplit : ∀ {P : Entry → Prop}, (∀ b ∈ openIn F.log, P b) → P e →
      ∀ b ∈ openIn (F.log ++ [e]), P b := fun hold hlast b hb => by
    rw [Log.openIn_append_begin hop hend] at hb
    exact (List.mem_append.mp hb).elim (hold b) fun hb => List.mem_singleton.mp hb ▸ hlast
  exact { hF with
    log_sound := hF.append_sound he
    orderly := Log.isOrderly_concat.mpr ⟨hF.orderly, fun _ => hlog, fun h => absurd hop h⟩
    open_unretired := hsplit hF.open_unretired hretired
    undo_known := fun u hu => mem_ids_append e (hF.undo_known u hu)
    undo_matches := fun u hu => hsplit (hF.undo_matches u hu) fun heq =>
      absurd (hF.undo_known u hu) (heq ▸ hnew)
    restored_intact := by
      rw [hF.restored_begin hop hnew]
      exact hF.restored_intact }

/-- What is restored of a state to which an open transaction was just applied. -/
theorem restore_applied {s next : State} {log : List Entry} {t intentHash payload : String}
    (hroot : s.merkleRoot = s.computedRoot) (hopen : t ∈ (openIn log).map Entry.tx)
    (hn : s.applied t intentHash payload δ = .ok next) :
    restore next log = { s with undo := none } := by
  obtain ⟨u, hu, rfl, hrev⟩ := reverted_applied hroot hn
  exact (restore_of_open hu hopen).trans hrev

/-- Where the record in the state is that of a transaction that ends, nothing is taken back. -/
theorem restore_close {s : State} {log : List Entry} {u : Undo} (hop : e.op ≠ .begin)
    (hu : s.undo = some u) (hut : u.tx = e.tx) : restore s (log ++ [e]) = s := by
  refine restore_of_closed fun v hv hm => ?_
  obtain rfl := Option.some.inj (hu.symm.trans hv)
  rw [Log.openIn_append_terminal hop, hut] at hm
  obtain ⟨b, hb, hbt⟩ := List.mem_map.mp hm
  simp [hbt] at hb

/-- Files to whose state the delta of an open transaction was applied are legible. -/
theorem Legible.apply (hF : F.Legible) {intentHash : String} {next : State}
    (hopen : e ∈ openIn F.log) (hpayload : e.payloadHash = payloadHash e.tx intentHash δ)
    (hconserves : δ.conserves = .ok ())
    (hfresh : ∀ p ∈ δ.changes.entries, (F.state.balances.of p.1).sameValue p.2.before = true)
    (hn : F.state.applied e.tx intentHash e.payloadHash δ = .ok next) :
    Legible { F with state := next } := by
  have htx : e.tx ∈ (openIn F.log).map Entry.tx := List.mem_map_of_mem hopen
  obtain ⟨u, hu, hut, -⟩ := reverted_applied hF.intact.rooted hn
  exact { hF with
    undo_known := fun v hv => by
      obtain rfl := Option.some.inj (hu.symm.trans hv)
      exact mem_ids.mpr (.inl (Log.mem_map_tx_iff.mpr (.inl (hut ▸ htx))))
    undo_matches := fun v hv b hb hbt => by
      obtain rfl := Option.some.inj (hu.symm.trans hv)
      -- Of the open entries only the one that was applied names its transaction.
      obtain rfl : b = e := List.inj_on_of_nodup_map hF.orderly.nodup_openIn hb hopen
        (hbt.trans hut)
      rw [hpayload]
      exact State.undoMatches_applied hn hfresh hu
    intact := isIntact_applied hF.intact hconserves hfresh hn
    restored_intact := by
      show (restore next F.log).IsIntact
      rw [restore_applied hF.intact.rooted htx hn]
      exact ⟨⟨hF.intact.storable.1, nofun⟩, hF.intact.rooted, hF.intact.nonneg⟩ }

/-- Files in which a transaction ended whose delta was just applied are legible. -/
theorem Legible.commit (hF : F.Legible) {s : State} {intentHash payload : String} (he : e.IsSound)
    (hop : e.op = .commit) (hopen : e.tx ∈ (openIn F.log).map Entry.tx)
    (hroot : s.merkleRoot = s.computedRoot)
    (hn : s.applied e.tx intentHash payload δ = .ok F.state) :
    Legible { F with log := F.log ++ [e] } := by
  obtain ⟨u, hu, hut, -⟩ := reverted_applied hroot hn
  refine hF.close he (by simp [hop]) hopen ?_
  rw [restore_close (by simp [hop]) hu hut]
  exact hF.intact

/-- Changed files are legible. -/
theorem Legible.change (hF : F.Legible) (h : F.Change δ F') : F'.Legible := by
  cases h with
  | begin he hop hnew => exact hF.begin he hop hnew
  | apply hopen hpayload _ hconserves hfresh hn =>
    exact hF.apply hopen hpayload hconserves hfresh hn
  | commit he hop hopen hroot hn => exact hF.commit he hop hopen hroot hn

/-- No identifier is forgotten by a commit. -/
theorem Change.mem_ids (h : F.Change δ F') {t : String} (ht : t ∈ F.ids) : t ∈ F'.ids := by
  cases h with
  | begin | commit => exact mem_ids_append _ ht
  | apply => exact ht

theorem Change.blocked (h : F.Change δ F') : F'.blocked = F.blocked := by cases h <;> rfl

/-! ## What else is said of files -/

end Files

section

variable {η : Type} (note : η → List Entry → η) (J : η → Files → Prop) (δ : Delta)

/-- Whether what is said of files still holds when they were repaired. -/
class Lasting : Prop where
  repair : ∀ {h : η} {F F' : Files}, F.Legible → J h F → F.Repair F' → J h F'

/-- Whether what is said of files still holds when nothing was taken back and nothing ended. -/
class Steady : Prop where
  rearrange : ∀ {h : η} {F F' : Files}, F.Legible → J h F → F.Rearrange F' → J h F'

instance [Lasting J] : Steady J where
  rearrange hF hJ hr := Lasting.repair hF hJ hr.repair

/-- Whether what is said of files leaves nothing new to be seen in their log. -/
class Noting : Prop where
  look : ∀ {h : η} {F : Files}, J h F → note h F.log = h

/-- Whether what is said of files still holds when they were changed and the log was seen. -/
class Recording : Prop where
  change : ∀ {h : η} {F F' : Files}, F.Legible → J h F → F.Change δ F' → J (note h F'.log) F'

/-- Whether files make sense, and what is said of them holds. -/
structure Files.Coherent (h : η) (F : Files) : Prop extends Legible F where
  fits : J h F

end

namespace Files.Coherent

variable {η : Type} {note : η → List Entry → η} {J : η → Files → Prop} {δ : Delta} {h : η}
  {F F' : Files}

theorem repair [Lasting J] (hF : F.Coherent J h) (hr : F.Repair F') : F'.Coherent J h :=
  ⟨hF.toLegible.repair hr, Lasting.repair hF.toLegible hF.fits hr⟩

theorem repairs [Lasting J] (hF : F.Coherent J h) (hr : F.Repairs F') : F'.Coherent J h := by
  induction hr with
  | refl => exact hF
  | tail _ hstep ih => exact ih.repair hstep

theorem rearrange [Steady J] (hF : F.Coherent J h) (hr : F.Rearrange F') : F'.Coherent J h :=
  ⟨hF.toLegible.repair hr.repair, Steady.rearrange hF.toLegible hF.fits hr⟩

theorem look [Noting note J] (hF : F.Coherent J h) : note h F.log = h := Noting.look hF.fits

theorem change [Recording note J δ] (hF : F.Coherent J h) (hc : F.Change δ F') :
    F'.Coherent J (note h F'.log) :=
  ⟨hF.toLegible.change hc, Recording.change hF.toLegible hF.fits hc⟩

end Files.Coherent

end Ledger
end LedgerGate

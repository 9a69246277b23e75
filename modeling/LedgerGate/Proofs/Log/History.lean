import LedgerGate.Ledger.Recovery
import LedgerGate.Proofs.Log.Lines
import Mathlib.Data.List.Induction

/-!
# What a log says of transactions

Which transactions the entries of a log leave open, which they end and which they commit,
each said of all entries at once. Recovery finds the same by taking one entry after another
(`History.Tells.addAll`).
-/

namespace LedgerGate.Log

/-- The transactions that entries end, in order. -/
def endedIn (es : List Entry) : List String := (es.filter fun e => e.op.isTerminal).map Entry.tx

/-- The transactions that entries commit, in order. -/
def committedIn (es : List Entry) : List String :=
  (es.filter fun e => e.op = .commit).map Entry.tx

/-- The entries that begin transactions which no entry ends, in order. -/
def openIn (es : List Entry) : List Entry :=
  es.filter fun e => e.op = .begin && !(endedIn es).contains e.tx

theorem mem_openIn {es : List Entry} {e : Entry} :
    e ∈ openIn es ↔ e ∈ es ∧ e.op = .begin ∧ e.tx ∉ endedIn es := by
  simp [openIn]

theorem isTerminal_iff {op : Op} : op.isTerminal = true ↔ op ≠ .begin := by
  cases op <;> simp [Op.isTerminal]

theorem mem_endedIn {es : List Entry} {e : Entry} (he : e ∈ es) (hop : e.op ≠ .begin) :
    e.tx ∈ endedIn es := List.mem_map_of_mem (List.mem_filter.mpr ⟨he, isTerminal_iff.mpr hop⟩)

theorem endedIn_append (es fs : List Entry) : endedIn (es ++ fs) = endedIn es ++ endedIn fs := by
  simp [endedIn]

theorem committedIn_append (es fs : List Entry) :
    committedIn (es ++ fs) = committedIn es ++ committedIn fs := by
  simp [committedIn]

theorem endedIn_begin {e : Entry} (h : e.op = .begin) : endedIn [e] = [] := by
  simp [endedIn, h, Op.isTerminal]

theorem endedIn_terminal {e : Entry} (h : e.op ≠ .begin) : endedIn [e] = [e.tx] := by
  simp [endedIn, isTerminal_iff.mpr h]

/-- A beginning leaves the others open, and one more if its transaction has not ended. -/
theorem openIn_append_begin {es : List Entry} {e : Entry} (h : e.op = .begin)
    (hn : e.tx ∉ endedIn es) : openIn (es ++ [e]) = openIn es ++ [e] := by
  simp [openIn, endedIn_append, endedIn_begin h, h, hn]

/-- An end closes its own transaction and no other. -/
theorem openIn_append_terminal {es : List Entry} {e : Entry} (h : e.op ≠ .begin) :
    openIn (es ++ [e]) = (openIn es).filter fun b => b.tx ≠ e.tx := by
  have hlast : (openIn (es ++ [e])) = es.filter fun b =>
      b.op = .begin && !(endedIn es ++ [e.tx]).contains b.tx := by
    rw [openIn, endedIn_append, endedIn_terminal h, List.filter_append]
    simp [h]
  rw [hlast, openIn, List.filter_filter]
  refine List.filter_congr fun b _ => ?_
  by_cases hb : b.tx = e.tx <;> by_cases hop : b.op = .begin <;> simp [hb, hop]

theorem endedIn_eq_nil {es : List Entry} (h : ∀ e ∈ es, e.op = .begin) : endedIn es = [] := by
  simp only [endedIn, List.map_eq_nil_iff, List.filter_eq_nil_iff]
  intro e he
  simp [h e he, Op.isTerminal]

theorem endedIn_openIn (es : List Entry) : endedIn (openIn es) = [] :=
  endedIn_eq_nil fun _ he => (mem_openIn.mp he).2.1

/-- Entries that begin open transactions leave these open by themselves. -/
theorem openIn_openIn (es : List Entry) : openIn (openIn es) = openIn es := by
  rw [openIn, endedIn_openIn]
  exact List.filter_eq_self.mpr fun e he => by simp [(mem_openIn.mp he).2.1]

theorem committedIn_openIn (es : List Entry) : committedIn (openIn es) = [] := by
  simp only [committedIn, List.map_eq_nil_iff, List.filter_eq_nil_iff]
  intro e he
  simp [(mem_openIn.mp he).2.1]

/-- A transaction that entries name is open or has ended. -/
theorem mem_map_tx_iff {es : List Entry} {t : String} :
    t ∈ es.map Entry.tx ↔ t ∈ (openIn es).map Entry.tx ∨ t ∈ endedIn es := by
  constructor
  · intro ht
    obtain ⟨e, he, rfl⟩ := List.mem_map.mp ht
    by_cases hend : e.tx ∈ endedIn es
    · exact .inr hend
    · have hop : e.op = .begin := by
        by_contra hop
        exact hend (mem_endedIn he hop)
      exact .inl (List.mem_map_of_mem (mem_openIn.mpr ⟨he, hop, hend⟩))
  · rintro (ht | ht)
    · obtain ⟨e, he, rfl⟩ := List.mem_map.mp ht
      exact List.mem_map_of_mem (mem_openIn.mp he).1
    · obtain ⟨e, he, rfl⟩ := List.mem_map.mp ht
      exact List.mem_map_of_mem (List.mem_filter.mp he).1

theorem notMem_endedIn_of_open {es : List Entry} {t : String}
    (h : t ∈ (openIn es).map Entry.tx) : t ∉ endedIn es := by
  obtain ⟨e, he, rfl⟩ := List.mem_map.mp h
  exact (mem_openIn.mp he).2.2

/-! ## Orderly logs -/

/-- Whether an entry may follow others: a transaction begins once, and only an open one ends. -/
structure CanFollow (es : List Entry) (e : Entry) : Prop where
  unused : e.op = .begin → e.tx ∉ es.map Entry.tx
  opened : e.op ≠ .begin → e.tx ∈ (openIn es).map Entry.tx

/-- Whether entries may follow others, one after another. -/
def OrderlyAfter (es : List Entry) : List Entry → Prop
  | [] => True
  | e :: r => CanFollow es e ∧ OrderlyAfter (es ++ [e]) r

/-- Whether each entry may follow those before it. -/
def IsOrderly (es : List Entry) : Prop := OrderlyAfter [] es

theorem orderlyAfter_append {es fs gs : List Entry} :
    OrderlyAfter es (fs ++ gs) ↔ OrderlyAfter es fs ∧ OrderlyAfter (es ++ fs) gs := by
  induction fs generalizing es with
  | nil => simp [OrderlyAfter]
  | cons e r ih => simp [OrderlyAfter, ih, and_assoc]

theorem isOrderly_concat {es : List Entry} {e : Entry} :
    IsOrderly (es ++ [e]) ↔ IsOrderly es ∧ CanFollow es e := by
  simp [IsOrderly, orderlyAfter_append, OrderlyAfter]

/-- No two open entries of an orderly log name one transaction. -/
theorem IsOrderly.nodup_openIn {es : List Entry} (h : IsOrderly es) :
    ((openIn es).map Entry.tx).Nodup := by
  induction es using List.reverseRecOn with
  | nil => exact List.nodup_nil
  | append_singleton es e ih =>
    obtain ⟨hes, hfollow⟩ := isOrderly_concat.mp h
    by_cases hop : e.op = .begin
    · have hnew := hfollow.unused hop
      have hend : e.tx ∉ endedIn es := fun hm => hnew (mem_map_tx_iff.mpr (.inr hm))
      rw [openIn_append_begin hop hend, List.map_append, List.nodup_append]
      refine ⟨ih hes, by simp, fun t ht u hu heq => hnew ?_⟩
      rw [heq, List.mem_singleton.mp hu] at ht
      exact mem_map_tx_iff.mpr (.inl ht)
    · rw [openIn_append_terminal hop]
      exact (ih hes).sublist (List.filter_sublist.map Entry.tx)

/-- Beginnings of different transactions may follow entries that name none of these. -/
theorem orderlyAfter_of_begins {es fs : List Entry} (hop : ∀ e ∈ fs, e.op = .begin)
    (hnew : ∀ e ∈ fs, e.tx ∉ es.map Entry.tx) (hnodup : (fs.map Entry.tx).Nodup) :
    OrderlyAfter es fs := by
  induction fs generalizing es with
  | nil => exact trivial
  | cons e r ih =>
    obtain ⟨hbegin, hops⟩ := List.forall_mem_cons.mp hop
    obtain ⟨hfirst, hrest⟩ := List.forall_mem_cons.mp hnew
    obtain ⟨hnot, hnodup⟩ := List.nodup_cons.mp hnodup
    refine ⟨⟨fun _ => hfirst, fun h => absurd hbegin h⟩, ih hops (fun f hf hm => ?_) hnodup⟩
    rw [List.map_append, List.mem_append, List.map_singleton, List.mem_singleton] at hm
    rcases hm with hm | heq
    · exact hrest f hf hm
    · exact hnot (heq ▸ List.mem_map_of_mem hf)

/-- The beginnings of open transactions are orderly by themselves. -/
theorem IsOrderly.openIn {es : List Entry} (h : IsOrderly es) : IsOrderly (openIn es) :=
  orderlyAfter_of_begins (fun _ he => (mem_openIn.mp he).2.1) (fun _ _ => List.not_mem_nil)
    h.nodup_openIn

end LedgerGate.Log

namespace LedgerGate.Recovery

open Log

/-- Whether a history is that of entries, some of which are retired. -/
structure History.Tells (retired : List String) (es : List Entry) (h : History) : Prop where
  begun : h.begun = openIn es
  begun_nodup : (h.begun.map Entry.tx).Nodup
  ended : ∀ t, t ∈ h.ended ↔ t ∈ endedIn es
  unretired_mem : ∀ e ∈ h.unretired, e ∈ es ∧ e.op ≠ .begin
  unretired : ∀ t ∈ endedIn es, t ∉ retired → t ∈ h.unretired.map Entry.tx
  endedInLog : h.endedInLog = (endedIn es).length

theorem History.tells_empty (retired : List String) : History.empty.Tells retired [] :=
  ⟨rfl, List.nodup_nil, fun t => by simp [empty, endedIn], nofun, nofun, rfl⟩

/-- An entry that is added begins a transaction that is new, or ends one that is open. -/
theorem History.add_cases {retired : List String} {h h' : History} {e : Entry}
    (hadd : h.add retired e = .ok h') :
    (e.op = .begin ∧ e.tx ∉ h.ended ∧ h.isBegun e.tx = false ∧
      h' = { h with begun := h.begun ++ [e] }) ∨
    (e.op ≠ .begin ∧ h.isBegun e.tx = true ∧ h' = {
      begun := h.begun.filter (fun b => b.tx ≠ e.tx)
      ended := e.tx :: h.ended
      unretired := if retired.contains e.tx then h.unretired else h.unretired ++ [e]
      endedInLog := h.endedInLog + 1 }) := by
  unfold History.add at hadd
  split at hadd
  · next hop =>
    split at hadd
    · exact absurd hadd nofun
    · next hnew =>
      rw [Bool.or_eq_true, not_or, List.contains_iff_mem, Bool.not_eq_true] at hnew
      exact .inl ⟨hop, hnew.1, hnew.2, (Except.ok.inj hadd).symm⟩
  · next hop =>
    split at hadd
    · next hbegun => exact .inr ⟨hop, hbegun, (Except.ok.inj hadd).symm⟩
    · exact absurd hadd nofun

theorem History.notMem_begun {h : History} {t : String} (ht : h.isBegun t = false) :
    t ∉ h.begun.map Entry.tx := by
  intro hmem
  obtain ⟨b, hb, hbt⟩ := List.mem_map.mp hmem
  exact List.any_eq_false.mp ht b hb (decide_eq_true hbt)

theorem History.Tells.begin {retired : List String} {es : List Entry} {h : History} {e : Entry}
    (ht : h.Tells retired es) (hop : e.op = .begin) (hended : e.tx ∉ h.ended)
    (hbegun : h.isBegun e.tx = false) :
    Tells retired (es ++ [e]) { h with begun := h.begun ++ [e] } := by
  have hsame : endedIn (es ++ [e]) = endedIn es := by
    rw [endedIn_append, endedIn_begin hop, List.append_nil]
  constructor
  · rw [openIn_append_begin hop (mt (ht.ended e.tx).mpr hended), ← ht.begun]
  · rw [List.map_append, List.nodup_append]
    refine ⟨ht.begun_nodup, by simp, fun t ht' u hu heq => notMem_begun hbegun ?_⟩
    rwa [← List.mem_singleton.mp hu, ← heq]
  · rw [hsame]
    exact ht.ended
  · exact fun f hf => (ht.unretired_mem f hf).imp_left (List.mem_append_left _)
  · rw [hsame]
    exact ht.unretired
  · rw [hsame]
    exact ht.endedInLog

theorem History.Tells.terminal {retired : List String} {es : List Entry} {h : History} {e : Entry}
    (ht : h.Tells retired es) (hop : e.op ≠ .begin) : Tells retired (es ++ [e]) {
      begun := h.begun.filter (fun b => b.tx ≠ e.tx)
      ended := e.tx :: h.ended
      unretired := if retired.contains e.tx then h.unretired else h.unretired ++ [e]
      endedInLog := h.endedInLog + 1 } := by
  have hended : endedIn (es ++ [e]) = endedIn es ++ [e.tx] := by
    rw [endedIn_append, endedIn_terminal hop]
  constructor
  · rw [openIn_append_terminal hop, ← ht.begun]
  · exact ht.begun_nodup.sublist (List.filter_sublist.map Entry.tx)
  · intro t
    simp [hended, ht.ended, or_comm]
  · intro f hf
    have hmem : f ∈ h.unretired ∨ f = e := by
      simp only at hf
      split at hf
      · exact .inl hf
      · simpa using hf
    rcases hmem with hf | rfl
    · exact (ht.unretired_mem f hf).imp_left (List.mem_append_left _)
    · exact ⟨by simp, hop⟩
  · intro t h1 h2
    rw [hended, List.mem_append, List.mem_singleton] at h1
    simp only
    rcases h1 with h1 | rfl
    · have hmem := ht.unretired t h1 h2
      split
      · exact hmem
      · exact List.map_append ▸ List.mem_append_left _ hmem
    · rw [if_neg (by simpa using h2)]
      simp
  · rw [hended, List.length_append, List.length_singleton, ← ht.endedInLog]

theorem History.Tells.add {retired : List String} {es : List Entry} {h h' : History} {e : Entry}
    (ht : h.Tells retired es) (hadd : h.add retired e = .ok h') : h'.Tells retired (es ++ [e]) := by
  rcases History.add_cases hadd with ⟨hop, hended, hbegun, rfl⟩ | ⟨hop, -, rfl⟩
  · exact ht.begin hop hended hbegun
  · exact ht.terminal hop

theorem History.Tells.addAll {path : String} {retired : List String} {es : List Entry}
    {h h' : History} {rs : List Record} (ht : h.Tells retired es)
    (hadd : h.addAll path retired rs = .ok h') :
    h'.Tells retired (es ++ rs.map Record.entry) := by
  induction rs generalizing es h with
  | nil =>
    obtain rfl := Except.ok.inj hadd
    simpa using ht
  | cons r rest ih =>
    rw [History.addAll] at hadd
    split at hadd
    · exact absurd hadd nofun
    · next h1 hr =>
      simpa using ih (ht.add hr) hadd

theorem History.Tells.isBegun_iff {retired : List String} {es : List Entry} {h : History}
    (ht : h.Tells retired es) {t : String} :
    h.isBegun t = true ↔ t ∈ (openIn es).map Entry.tx := by
  simp [History.isBegun, ht.begun, List.any_eq_true, List.mem_map]

/-- An entry that may follow is added. -/
theorem History.Tells.exists_add {retired : List String} {es : List Entry} {h : History}
    {e : Entry} (ht : h.Tells retired es) (he : CanFollow es e) :
    ∃ h', h.add retired e = .ok h' := by
  unfold History.add
  split
  · next hop =>
    have hnew := he.unused hop
    have hopen : ¬ h.isBegun e.tx = true := fun hb =>
      hnew (mem_map_tx_iff.mpr (.inl (ht.isBegun_iff.mp hb)))
    have hended : ¬ h.ended.contains e.tx = true := fun hb =>
      hnew (mem_map_tx_iff.mpr (.inr ((ht.ended e.tx).mp (List.contains_iff_mem.mp hb))))
    rw [if_neg (by simp_all)]
    exact ⟨_, rfl⟩
  · next hop =>
    rw [if_pos (ht.isBegun_iff.mpr (he.opened hop))]
    exact ⟨_, rfl⟩

/-- The records of an orderly log are all added. -/
theorem History.Tells.exists_addAll {path : String} {retired : List String} {es : List Entry}
    {h : History} {rs : List Record} (ht : h.Tells retired es)
    (hrs : OrderlyAfter es (rs.map Record.entry)) :
    ∃ h', h.addAll path retired rs = .ok h' := by
  induction rs generalizing es h with
  | nil => exact ⟨h, rfl⟩
  | cons r rest ih =>
    obtain ⟨hfollow, hrest⟩ := hrs
    obtain ⟨h₁, hadd⟩ := ht.exists_add hfollow
    rw [History.addAll, hadd]
    exact ih (ht.add hadd) hrest

/-- The record by which the state is taken back is its own, and its transaction is open. -/
theorem findUndo_ok {dir : String} {s : State} {begun : List Entry} {o : Option Undo}
    (h : findUndo dir s begun = .ok o) :
    (∃ u, o = some u ∧ s.undo = some u ∧ u.tx ∈ begun.map Entry.tx) ∨
      (o = none ∧ ∀ u, s.undo = some u → u.tx ∉ begun.map Entry.tx) := by
  unfold findUndo at h
  split at h
  · next hs => exact .inr ⟨(Except.ok.inj h).symm, fun u hu => absurd (hs.symm.trans hu) nofun⟩
  · next u hs =>
    split at h
    · next hf =>
      refine .inr ⟨(Except.ok.inj h).symm, fun v hv hmem => ?_⟩
      obtain rfl := Option.some.inj (hs.symm.trans hv)
      obtain ⟨e, he, hetx⟩ := List.mem_map.mp hmem
      simpa [hetx] using List.find?_eq_none.mp hf e he
    · next e hf =>
      split at h
      · refine .inl ⟨u, (Except.ok.inj h).symm, hs,
          List.mem_map.mpr ⟨e, List.mem_of_find?_eq_some hf, ?_⟩⟩
        simpa using List.find?_some hf
      · exact absurd h nofun

/-- A record by which the state is taken back has the payload digest of an open transaction. -/
theorem findUndo_matches {dir : String} {s : State} {begun : List Entry} {u : Undo}
    (h : findUndo dir s begun = .ok (some u)) :
    ∃ e ∈ begun, e.tx = u.tx ∧ s.undoMatches u e.payloadHash = true := by
  unfold findUndo at h
  split at h
  · exact absurd (Except.ok.inj h) nofun
  · next v hv =>
    split at h
    · exact absurd (Except.ok.inj h) nofun
    · next e hf =>
      have htx : e.tx = v.tx := by simpa using List.find?_some hf
      split at h
      · next hmatches =>
        obtain rfl := Option.some.inj (Except.ok.inj h)
        exact ⟨e, List.mem_of_find?_eq_some hf, htx, hmatches⟩
      · exact absurd h nofun

/-- What a plan is made of. -/
theorem planFor_ok {dir : String} {s : State} {retired : List String} {rs : List Record}
    {p : Plan} (h : planFor dir s retired rs = .ok p) :
    p.history.Tells retired (rs.map Record.entry) ∧ p.retired = retired ∧
      findUndo dir s p.history.begun = .ok p.undo := by
  unfold planFor at h
  split at h
  · exact absurd h nofun
  · next hist hadd =>
    split at h
    · exact absurd h nofun
    · split at h
      · exact absurd h nofun
      · next u hu =>
        obtain rfl := Except.ok.inj h
        exact ⟨by simpa using (History.tells_empty retired).addAll hadd, rfl, hu⟩

/-- A record that matches the payload of its open transaction is accepted. -/
theorem exists_findUndo {dir : String} {s : State} {begun : List Entry}
    (h : ∀ u, s.undo = some u → ∀ e ∈ begun, e.tx = u.tx →
      s.undoMatches u e.payloadHash = true) : ∃ o, findUndo dir s begun = .ok o := by
  unfold findUndo
  split
  · exact ⟨none, rfl⟩
  · next u hu =>
    split
    · exact ⟨none, rfl⟩
    · next e he =>
      have htx : e.tx = u.tx := by simpa using List.find?_some he
      rw [if_pos (h u hu e (List.mem_of_find?_eq_some he) htx)]
      exact ⟨some u, rfl⟩

/-- There is a plan for an orderly log, none of whose open transactions is retired, beside a
state whose record matches. -/
theorem exists_planFor {dir : String} {s : State} {retired : List String} {rs : List Record}
    (horderly : IsOrderly (rs.map Record.entry))
    (hopen : ∀ e ∈ openIn (rs.map Record.entry), e.tx ∉ retired)
    (hundo : ∀ u, s.undo = some u → ∀ e ∈ openIn (rs.map Record.entry), e.tx = u.tx →
      s.undoMatches u e.payloadHash = true) : ∃ p, planFor dir s retired rs = .ok p := by
  obtain ⟨h, hadd⟩ : ∃ h, History.empty.addAll (pathOf dir Ledger.logName) retired rs = .ok h :=
    (History.tells_empty retired).exists_addAll horderly
  have htells : h.Tells retired (rs.map Record.entry) := by
    simpa using (History.tells_empty retired).addAll hadd
  have hnone : h.begun.find? (fun e => retired.contains e.tx) = none :=
    List.find?_eq_none.mpr fun e he => by
      rw [htells.begun] at he
      simpa using hopen e he
  obtain ⟨o, ho⟩ : ∃ o, findUndo dir s h.begun = .ok o := exists_findUndo (htells.begun ▸ hundo)
  unfold planFor
  rw [hadd]
  dsimp only
  rw [hnone, ho]
  exact ⟨_, rfl⟩

/-- The log of the retired is accepted if all its entries end transactions. -/
theorem exists_retiredTransactions {path : String} {rs : List Record}
    (h : ∀ r ∈ rs, r.entry.op ≠ .begin) : ∃ txs, retiredTransactions path rs = .ok txs := by
  induction rs with
  | nil => exact ⟨[], rfl⟩
  | cons r rest ih =>
    obtain ⟨hr, hrest⟩ := List.forall_mem_cons.mp h
    obtain ⟨txs, htxs⟩ := ih hrest
    rw [retiredTransactions, if_pos (isTerminal_iff.mpr hr), htxs]
    exact ⟨_, rfl⟩

theorem retiredTransactions_eq {path : String} {rs : List Record} {txs : List String}
    (h : retiredTransactions path rs = .ok txs) : txs = rs.map fun r => r.entry.tx := by
  induction rs generalizing txs with
  | nil => exact (Except.ok.inj h).symm
  | cons r rest ih =>
    rw [retiredTransactions] at h
    split at h
    · split at h
      · exact absurd h nofun
      · next ts hts =>
        rw [← Except.ok.inj h, ih hts]
        rfl
    · exact absurd h nofun

end LedgerGate.Recovery

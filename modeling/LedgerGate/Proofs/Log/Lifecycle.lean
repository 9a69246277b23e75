import LedgerGate.Proofs.Log.History
import Mathlib.Data.List.Nodup

/-!
# The life of a transaction

A log mixes the steps of many transactions. It is orderly exactly if the steps of each
transaction, taken alone, are the start of a life: a beginning and then at most one end
(`isOrderly_iff`). Recovery goes through a log entry by entry, and it stops at the first one with
which the steps of a transaction are no longer that (`Recovery.History.addAll_error`).
-/

namespace LedgerGate.Log

/-! ## Lives -/

/-- Whether steps are those of a transaction: it begins, and then it may be committed or rolled
back. -/
def IsLife (ops : List Op) : Prop :=
  ops = [.begin] ∨ ops = [.begin, .commit] ∨ ops = [.begin, .rollback]

/-- Whether steps are the first ones of a life. -/
def IsStart (ops : List Op) : Prop := ∃ life, IsLife life ∧ ops <+: life

/-- What a life starts with is a life, unless it is nothing. -/
theorem isStart_iff {ops : List Op} : IsStart ops ↔ ops = [] ∨ IsLife ops := by
  constructor
  · rintro ⟨life, rfl | rfl | rfl, hprefix⟩ <;>
      rcases List.prefix_cons_iff.mp hprefix with rfl | ⟨rest, rfl, hrest⟩
    all_goals simp_all [List.prefix_cons_iff, IsLife]
    all_goals tauto
  · rintro (rfl | hlife)
    · exact ⟨[.begin], .inl rfl, List.nil_prefix⟩
    · exact ⟨ops, hlife, List.prefix_rfl⟩

theorem IsStart.of_append {ops more : List Op} (h : IsStart (ops ++ more)) : IsStart ops := by
  obtain ⟨life, hlife, hprefix⟩ := h
  exact ⟨life, hlife, (List.prefix_append ops more).trans hprefix⟩

/-- A life goes on with a beginning only before everything else, and with an end only after a
beginning. -/
theorem isStart_concat_iff {ops : List Op} {op : Op} (h : IsStart ops) :
    IsStart (ops ++ [op]) ↔ if op = .begin then ops = [] else ops = [.begin] := by
  rw [isStart_iff]
  rcases isStart_iff.mp h with rfl | rfl | rfl | rfl <;> cases op <;> simp [IsLife]

/-! ## The steps of one transaction -/

/-- The steps of a transaction among entries, in order. -/
def stepsOf (t : String) (es : List Entry) : List Op :=
  (es.filter fun e => e.tx = t).map Entry.op

theorem stepsOf_append (t : String) (es fs : List Entry) :
    stepsOf t (es ++ fs) = stepsOf t es ++ stepsOf t fs := by
  simp [stepsOf]

theorem stepsOf_concat_self (es : List Entry) (e : Entry) :
    stepsOf e.tx (es ++ [e]) = stepsOf e.tx es ++ [e.op] := by
  simp [stepsOf]

theorem stepsOf_concat_of_ne {t : String} {e : Entry} (h : e.tx ≠ t) (es : List Entry) :
    stepsOf t (es ++ [e]) = stepsOf t es := by
  simp [stepsOf, h]

theorem mem_stepsOf {t : String} {es : List Entry} {op : Op} :
    op ∈ stepsOf t es ↔ ∃ e ∈ es, e.tx = t ∧ e.op = op := by
  simp [stepsOf, and_assoc]

theorem stepsOf_eq_nil_iff {t : String} {es : List Entry} :
    stepsOf t es = [] ↔ t ∉ es.map Entry.tx := by
  simp [stepsOf]

/-- Of the transactions whose steps are the start of a life, those are open that only begin. -/
theorem stepsOf_eq_begin_iff {t : String} {es : List Entry} (h : IsStart (stepsOf t es)) :
    stepsOf t es = [.begin] ↔ t ∈ (openIn es).map Entry.tx := by
  constructor
  · intro hsteps
    obtain ⟨e, he, rfl, hop⟩ := mem_stepsOf.mp (hsteps ▸ List.mem_singleton_self Op.begin)
    refine List.mem_map_of_mem (mem_openIn.mpr ⟨he, hop, fun hended => ?_⟩)
    obtain ⟨f, hf, heq⟩ := List.mem_map.mp hended
    obtain ⟨hf, hterminal⟩ := List.mem_filter.mp hf
    have hmem : f.op ∈ stepsOf e.tx es := mem_stepsOf.mpr ⟨f, hf, heq, rfl⟩
    rw [hsteps, List.mem_singleton] at hmem
    exact isTerminal_iff.mp hterminal hmem
  · intro hopen
    have hend : ∀ op ∈ stepsOf t es, op = .begin := by
      intro op hop
      by_contra hne
      obtain ⟨f, hf, rfl, rfl⟩ := mem_stepsOf.mp hop
      exact notMem_endedIn_of_open hopen (mem_endedIn hf hne)
    have hsome : stepsOf t es ≠ [] := fun hnil =>
      stepsOf_eq_nil_iff.mp hnil (mem_map_tx_iff.mpr (.inl hopen))
    rcases isStart_iff.mp h with hnil | hlife | hlife | hlife
    · exact absurd hnil hsome
    · exact hlife
    · exact absurd (hend .commit (by simp [hlife])) nofun
    · exact absurd (hend .rollback (by simp [hlife])) nofun

/-! ## Orderly logs -/

/-- An entry may follow others if it goes on with the life of its transaction. -/
theorem canFollow_iff {es : List Entry} {e : Entry} (h : IsStart (stepsOf e.tx es)) :
    CanFollow es e ↔ IsStart (stepsOf e.tx (es ++ [e])) := by
  rw [stepsOf_concat_self, isStart_concat_iff h, stepsOf_eq_nil_iff, stepsOf_eq_begin_iff h]
  constructor
  · intro hfollow
    split
    · next hop => exact hfollow.unused hop
    · next hop => exact hfollow.opened hop
  · intro hsteps
    refine ⟨fun hop => ?_, fun hop => ?_⟩
    · rwa [if_pos hop] at hsteps
    · rwa [if_neg hop] at hsteps

/-- A log is orderly exactly if the steps of each transaction are the start of a life, however
they are mixed. -/
theorem isOrderly_iff {es : List Entry} : IsOrderly es ↔ ∀ t, IsStart (stepsOf t es) := by
  induction es using List.reverseRecOn with
  | nil => exact ⟨fun _ t => isStart_iff.mpr (.inl rfl), fun _ => trivial⟩
  | append_singleton es e ih =>
    rw [isOrderly_concat, ih]
    constructor
    · rintro ⟨hstart, hfollow⟩ t
      by_cases ht : e.tx = t
      · subst ht
        exact (canFollow_iff (hstart _)).mp hfollow
      · rw [stepsOf_concat_of_ne ht]
        exact hstart t
    · intro hstart
      have hbefore : ∀ t, IsStart (stepsOf t es) := by
        intro t
        have ht := hstart t
        rw [stepsOf_append] at ht
        exact ht.of_append
      exact ⟨hbefore, (canFollow_iff (hbefore _)).mpr (hstart e.tx)⟩

/-- In an orderly log a transaction that is open has one entry, and one that has ended has two. -/
theorem IsOrderly.length_eq {es : List Entry} (h : IsOrderly es) :
    es.length = (Log.openIn es).length + 2 * (endedIn es).length := by
  induction es using List.reverseRecOn with
  | nil => rfl
  | append_singleton es e ih =>
    obtain ⟨hes, hfollow⟩ := isOrderly_concat.mp h
    have hlength := ih hes
    rw [endedIn_append, List.length_append, List.length_append, List.length_singleton]
    by_cases hop : e.op = .begin
    · have hend : e.tx ∉ endedIn es := fun hm =>
        hfollow.unused hop (mem_map_tx_iff.mpr (.inr hm))
      rw [openIn_append_begin hop hend, endedIn_begin hop, List.length_append,
        List.length_singleton, List.length_nil]
      omega
    · obtain ⟨b, hb, htx⟩ := List.mem_map.mp (hfollow.opened hop)
      -- Exactly one open entry is that of the transaction which ends.
      have herase : (Log.openIn es).filter (fun b => b.tx ≠ e.tx) = (Log.openIn es).erase b := by
        refine (List.filter_congr fun c hc => ?_).trans
          ((List.Nodup.of_map _ hes.nodup_openIn).erase_eq_filter b).symm
        have hiff : c.tx = e.tx ↔ c = b := by
          rw [← htx]
          exact ⟨List.inj_on_of_nodup_map hes.nodup_openIn hc hb, congrArg Entry.tx⟩
        simp [hiff, bne, beq_eq_decide]
      have hpos : 0 < (Log.openIn es).length := List.length_pos_of_mem hb
      rw [openIn_append_terminal hop, endedIn_terminal hop, herase, List.length_erase_of_mem hb,
        List.length_singleton]
      omega

end LedgerGate.Log

namespace LedgerGate.Recovery

open Log

variable {retired : List String} {es : List Entry} {h h' : History} {e : Entry} {path : String}
  {rs : List Record}

/-! ## What a scan accepts -/

/-- An entry that is added may follow those before it. -/
theorem History.Tells.canFollow (ht : h.Tells retired es) (hadd : h.add retired e = .ok h') :
    CanFollow es e := by
  rcases History.add_cases hadd with ⟨hop, hended, hbegun, -⟩ | ⟨hop, hbegun, -⟩
  · refine ⟨fun _ hmem => ?_, fun hne => absurd hop hne⟩
    rcases mem_map_tx_iff.mp hmem with hopen | hclosed
    · exact Bool.false_ne_true (hbegun.symm.trans (ht.isBegun_iff.mpr hopen))
    · exact hended ((ht.ended e.tx).mpr hclosed)
  · exact ⟨fun hbegin => absurd hbegin hop, fun _ => ht.isBegun_iff.mp hbegun⟩

/-- Records that are all added are orderly. -/
theorem History.Tells.orderlyAfter (ht : h.Tells retired es)
    (hadd : h.addAll path retired rs = .ok h') : OrderlyAfter es (rs.map Record.entry) := by
  induction rs generalizing es h with
  | nil => exact trivial
  | cons r rest ih =>
    rw [History.addAll] at hadd
    split at hadd
    · cases hadd
    · next h₁ hr => exact ⟨ht.canFollow hr, ih (ht.add hr) hadd⟩

/-- A scan fails at the first record that may not follow those before it. -/
theorem History.Tells.addAll_error {f : Fault} (ht : h.Tells retired es)
    (hadd : h.addAll path retired rs = .error f) : ∃ before r after reason,
      rs = before ++ r :: after ∧ OrderlyAfter es (before.map Record.entry) ∧
        ¬ CanFollow (es ++ before.map Record.entry) r.entry ∧
          f = .logCorrupt path r.offset reason r.raw := by
  induction rs generalizing es h with
  | nil => cases hadd
  | cons r rest ih =>
    rw [History.addAll] at hadd
    split at hadd
    · next reason hr =>
      refine ⟨[], r, rest, reason, rfl, trivial, fun hfollow => ?_, (Except.error.inj hadd).symm⟩
      rw [List.map_nil, List.append_nil] at hfollow
      obtain ⟨h₁, hok⟩ := ht.exists_add hfollow
      rw [hr] at hok
      cases hok
    · next h₁ hr =>
      obtain ⟨before, r', after, reason, rfl, horderly, hnot, rfl⟩ := ih (ht.add hr) hadd
      refine ⟨r :: before, r', after, reason, rfl, ⟨ht.canFollow hr, horderly⟩, ?_, rfl⟩
      simpa using hnot

/-- The scan of a log fails at the first record with which it stops being orderly. -/
theorem History.addAll_error {f : Fault} (hadd : empty.addAll path retired rs = .error f) :
    ∃ before r after reason, rs = before ++ r :: after ∧ IsOrderly (before.map Record.entry) ∧
      ¬ IsOrderly ((before ++ [r]).map Record.entry) ∧
        f = .logCorrupt path r.offset reason r.raw := by
  obtain ⟨before, r, after, reason, rfl, horderly, hnot, rfl⟩ :=
    (tells_empty retired).addAll_error hadd
  refine ⟨before, r, after, reason, rfl, horderly, fun hall => hnot ?_, rfl⟩
  rw [List.map_append, List.map_singleton, isOrderly_concat] at hall
  simpa using hall.2

end LedgerGate.Recovery

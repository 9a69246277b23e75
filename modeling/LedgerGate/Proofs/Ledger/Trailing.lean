import LedgerGate.Proofs.Ledger.Credible

/-!
# Layers that files are ahead of

Where waiting for the log has failed, the log has an entry of which the layer does not know. What
the two still have in common is `Layer.Trails`, and `Layer.Rests` is what a layer that serves may
rely on. A compaction whose operations may fail comes to one of few ends (`Layer.yields_compact`),
and it keeps both, unless it leaves the layer with a log that is no longer the one under the log's
name (`Layer.Compacts.attends`).
-/

namespace LedgerGate

open Ledger
open Log (Entry lines openIn endedIn committedIn)

namespace Layer

variable {l : Layer} {i : Nat} {F : Files} {e : Entry}

/-! ## Identifiers -/

theorem isUsed_iff {t : String} :
    l.isUsed t = true ↔ t ∈ l.begun.map Entry.tx ∨ t ∈ l.ended := by
  simp [isUsed, isBegun]

/-- An entry uses its own identifier. -/
theorem isUsed_noted_iff {log : Log.File} {t : String} :
    (l.noted log e).isUsed t = true ↔ l.isUsed t = true ∨ t = e.tx := by
  rw [isUsed_iff, isUsed_iff]
  unfold noted
  split
  · simp only [List.map_append, List.map_cons, List.map_nil, List.mem_append, List.mem_singleton]
    tauto
  · by_cases ht : t = e.tx
    · simp [ht]
    · have hkept : t ∈ (l.begun.filter fun b => b.tx ≠ e.tx).map Entry.tx ↔
          t ∈ l.begun.map Entry.tx := by
        simp only [List.mem_map, List.mem_filter, decide_eq_true_eq]
        constructor
        · rintro ⟨b, ⟨hb, -⟩, hbt⟩
          exact ⟨b, hb, hbt⟩
        · rintro ⟨b, hb, hbt⟩
          exact ⟨b, ⟨hb, hbt ▸ ht⟩, hbt⟩
      simp only [hkept, List.mem_cons, ht, false_or, or_false]

/-! ## What a layer knows of its files -/

/-- Whether files hold what an open ledger says of them. There may be beginnings in the log that it
does not know of, and ends of transactions that are still begun to it. -/
structure Trails (l : Layer) (i : Nat) (F : Files) : Prop extends l.AppendsTo i F where
  retiredTail : F.retiredTail = []
  state : l.state = F.state
  begun : ∀ e ∈ l.begun, e ∈ F.log ∧ e.op = .begin
  unretired : ∀ e ∈ l.unretired, e.IsSound ∧ e.op ≠ .begin ∧ e.tx ∈ endedIn F.log
  ended : ∀ t ∈ l.ended, t ∈ l.unretired.map Entry.tx ∨ t ∈ F.retired.map Entry.tx
  known : ∀ t, t ∈ endedIn F.log ∨ t ∈ F.retired.map Entry.tx → l.isUsed t = true
  undo : ∀ u, l.state.undo = some u → l.isUsed u.tx = true

/-- Whether nothing is under way in a layer, and the record in its state is that of a transaction
which is over. -/
structure Rests (l : Layer) (F : Files) : Prop where
  begun : l.begun = []
  closed : ∀ u, l.state.undo = some u → u.tx ∉ (openIn F.log).map Entry.tx

theorem Mirrors.trails (hl : l.Mirrors i F) (hF : F.Legible) : l.Trails i F where
  toAppendsTo := hl.appendsTo
  retiredTail := hl.retiredTail
  state := hl.state
  begun e he := by
    rw [hl.begun] at he
    exact ⟨(Log.mem_openIn.mp he).1, (Log.mem_openIn.mp he).2.1⟩
  unretired := hl.unretired_mem
  ended t ht := ((hl.ended t).mp ht).elim (hl.unretired t) .inr
  known t ht := Layer.isUsed_iff.mpr (.inr ((hl.ended t).mpr ht))
  undo u hu := hl.isUsed_iff.mpr (hF.undo_known u (hl.state ▸ hu))

theorem Mirrors.rests (hl : l.Mirrors i F) (hbegun : l.begun = []) : l.Rests F where
  begun := hbegun
  closed u _ := by simp [← hl.begun, hbegun]

theorem Trails.halt (hl : l.Trails i F) (reason : String) : (l.halt reason).Trails i F :=
  { hl with }

/-- The files hold every identifier that a layer knows. -/
theorem Trails.mem_ids (hl : l.Trails i F) {t : String} (ht : l.isUsed t = true) : t ∈ F.ids := by
  rw [Files.mem_ids]
  rcases isUsed_iff.mp ht with ht | ht
  · obtain ⟨e, he, rfl⟩ := List.mem_map.mp ht
    exact .inl (List.mem_map_of_mem (hl.begun e he).1)
  · refine (hl.ended t ht).imp_left fun ht => ?_
    obtain ⟨e, he, rfl⟩ := List.mem_map.mp ht
    exact Log.mem_map_tx_iff.mpr (.inr (hl.unretired e he).2.2)

theorem Trails.undo_known (hl : l.Trails i F) : ∀ u, F.state.undo = some u → u.tx ∈ F.ids :=
  fun u hu => hl.mem_ids (hl.undo u (hl.state.symm ▸ hu))

/-! ## Steps -/

/-- An entry that a layer has not noted is in the log. -/
theorem Trails.append (hl : l.Trails i F) (he : e.op ≠ .begin → l.isUsed e.tx = true) :
    l.Trails i { F with log := F.log ++ [e] } := by
  have hended : ∀ t, t ∈ endedIn (F.log ++ [e]) → t ∈ endedIn F.log ∨ e.op ≠ .begin ∧ t = e.tx := by
    intro t ht
    rw [Log.endedIn_append, List.mem_append] at ht
    refine ht.imp_right fun ht => ?_
    by_cases hop : e.op = .begin
    · rw [Log.endedIn_begin hop] at ht
      exact absurd ht List.not_mem_nil
    · rw [Log.endedIn_terminal hop] at ht
      exact ⟨hop, List.mem_singleton.mp ht⟩
  exact { hl with
    begun := fun b hb => (hl.begun b hb).imp_left (List.mem_append_left _)
    unretired := fun f hf => by
      obtain ⟨hsound, hop, hmem⟩ := hl.unretired f hf
      refine ⟨hsound, hop, ?_⟩
      rw [Log.endedIn_append]
      exact List.mem_append_left _ hmem
    known := fun t ht => by
      rcases ht with ht | ht
      · rcases hended t ht with ht | ⟨hop, rfl⟩
        · exact hl.known t (.inl ht)
        · exact he hop
      · exact hl.known t (.inr ht) }

theorem Trails.known_noted (hl : l.Trails i F) (log : Log.File) (e : Entry) :
    ∀ t, t ∈ endedIn (F.log ++ [e]) ∨ t ∈ F.retired.map Entry.tx →
      (l.noted log e).isUsed t = true := by
  intro t ht
  rw [isUsed_noted_iff]
  by_cases htx : t = e.tx
  · exact .inr htx
  · refine .inl (hl.known t (ht.imp_left fun ht => ?_))
    rw [Log.endedIn_append, List.mem_append] at ht
    refine ht.resolve_right fun ht => htx ?_
    obtain ⟨b, hb, rfl⟩ := List.mem_map.mp ht
    rw [List.mem_singleton.mp (List.mem_filter.mp hb).1]

/-- A step of a transaction is logged and noted. -/
theorem Trails.noted (hl : l.Trails i F) {log : Log.File} (hsound : e.IsSound) (hid : log.id = i)
    (hname : log.name = logName) : (l.noted log e).Trails i { F with log := F.log ++ [e] } := by
  have hknown := hl.known_noted log e
  have hundo : ∀ u, (l.noted log e).state.undo = some u → (l.noted log e).isUsed u.tx = true := by
    intro u hu
    rw [state_noted] at hu
    exact isUsed_noted_iff.mpr (.inl (hl.undo u hu))
  have hunretired : ∀ f ∈ l.unretired,
      f.IsSound ∧ f.op ≠ .begin ∧ f.tx ∈ endedIn (F.log ++ [e]) := by
    intro f hf
    obtain ⟨hf, hop, hmem⟩ := hl.unretired f hf
    rw [Log.endedIn_append]
    exact ⟨hf, hop, List.mem_append_left _ hmem⟩
  by_cases hop : e.op = .begin
  · rw [Layer.noted, if_pos hop] at hknown hundo ⊢
    exact { hl with
      id := hid
      name := hname
      begun := fun b hb => by
        rcases List.mem_append.mp hb with hb | hb
        · exact (hl.begun b hb).imp_left (List.mem_append_left _)
        · obtain rfl := List.mem_singleton.mp hb
          exact ⟨List.mem_append_right _ hb, hop⟩
      unretired := hunretired
      known := hknown
      undo := hundo }
  · rw [Layer.noted, if_neg hop] at hknown hundo ⊢
    exact { hl with
      id := hid
      name := hname
      begun := fun b hb =>
        (hl.begun b (List.mem_filter.mp hb).1).imp_left (List.mem_append_left _)
      unretired := fun f hf => by
        rcases List.mem_append.mp hf with hf | hf
        · exact hunretired f hf
        · obtain rfl := List.mem_singleton.mp hf
          exact ⟨hsound, hop, Log.mem_endedIn (List.mem_append_right _ hf) hop⟩
      ended := fun t ht => by
        rw [List.map_append, List.mem_append]
        rcases List.mem_cons.mp ht with rfl | ht
        · exact .inl (.inr (List.mem_singleton_self _))
        · exact (hl.ended t ht).imp_left .inl
      known := hknown
      undo := hundo }

/-- A new state is in the state file whose record is that of a transaction that the layer knows. -/
theorem Trails.follow (hl : l.Trails i F) {next : State}
    (hundo : ∀ u, next.undo = some u → l.isUsed u.tx = true) :
    (l.follow next).Trails i { F with state := next } :=
  { hl with state := rfl, undo := hundo }

/-- A beginning that a layer has not noted is none of its last transaction. -/
theorem Rests.append (h : l.Rests F) (hl : l.Trails i F) (hop : e.op = .begin)
    (hnew : l.isUsed e.tx = false) : l.Rests { F with log := F.log ++ [e] } where
  begun := h.begun
  closed u hu hm := by
    have hend : e.tx ∉ endedIn F.log := fun hend => by
      rw [hl.known e.tx (.inl hend)] at hnew
      cases hnew
    rw [Log.openIn_append_begin hop hend, List.map_append, List.mem_append] at hm
    rcases hm with hm | hm
    · exact h.closed u hu hm
    · have heq : u.tx = e.tx := List.mem_singleton.mp hm
      rw [← heq, hl.undo u hu] at hnew
      cases hnew

/-- Where nothing is under way, nothing is to be taken back. -/
theorem Rests.restored (h : l.Rests F) (hl : l.Trails i F) : F.restored = l.state := by
  rw [hl.state]
  exact restore_of_closed fun u hu => h.closed u (hl.state.symm ▸ hu)

/-! ## Compactions -/

section

variable {d d' : Disk} {fails : FileOp → Prop}

/-- A log of the retired is made. -/
theorem yields_createRetired {dir : String} {r : Except Fault Log.File} (hs : Stores d i F)
    (hret : F.hasRetired = false) (hempty : F.retired = []) (ht : F.retiredTail = [])
    (h : (Log.File.create dir retiredName).run.Yields fails d r d') :
    (∃ c, r = .error c) ∧ (Stores d' i F ∨ Stores d' i { F with hasRetired := true }) ∨
      ∃ f, r = .ok f ∧ Stores d' i { F with hasRetired := true } ∧
        d'.nodes.get? retiredName = some (.file f.id (lines F.retired)) := by
  obtain ⟨j, d₁, hc, hs₁, hfile, -⟩ := hs.createRetired hret hempty
  rw [← ht] at hs₁
  unfold Log.File.create at h
  rcases Job.yields_perform_bind (.createNew retiredName) (congrArg (FileOp.opened d) hc) h with
    h | ⟨herror, -, rfl⟩
  · rcases Job.yields_perform_bind (.syncFile j) rfl h with h | ⟨herror, -, rfl⟩
    · obtain ⟨rfl, rfl⟩ := Program.Yields.eq_of_pure h
      exact .inr ⟨_, rfl, hs₁, hfile⟩
    · exact .inl ⟨herror, .inr hs₁⟩
  · exact .inl ⟨herror, .inl hs⟩

/-- The log of the retired is opened, and made first if it is not there. -/
theorem yields_openRetired {dir : String} {r : Except Fault Log.File} (hs : Stores d i F)
    (hmissing : F.hasRetired = false → F.retired = []) (ht : F.retiredTail = [])
    (h : (Log.File.openOrCreate dir retiredName).run.Yields fails d r d') :
    (∃ c, r = .error c) ∧ (Stores d' i F ∨ Stores d' i { F with hasRetired := true }) ∨
      ∃ f, r = .ok f ∧ Stores d' i { F with hasRetired := true } ∧
        d'.nodes.get? retiredName = some (.file f.id (lines F.retired)) := by
  unfold Log.File.openOrCreate at h
  rcases Job.yields_perform_bind (.isThere retiredName) rfl h with h | ⟨herror, -, rfl⟩
  · cases hret : F.hasRetired with
    | true =>
      obtain ⟨k, hk⟩ := hs.get?_retired hret
      rw [ht, List.append_nil] at hk
      have hs' : Stores d i { F with hasRetired := true } := hret ▸ hs
      rw [if_pos (by simp [Disk.isThere, Table.contains, hk])] at h
      have hopen : d.openFile retiredName = .ok (k, (lines F.retired).length) := by
        simp [Disk.openFile, hk]
      unfold Log.File.openLog at h
      rcases Job.yields_perform_bind (.openFile retiredName) (congrArg (·, d) hopen) h with
        h | ⟨herror, -, rfl⟩
      · obtain ⟨rfl, rfl⟩ := Program.Yields.eq_of_pure h
        exact .inr ⟨_, rfl, hs', hk⟩
      · exact .inl ⟨herror, .inl hs⟩
    | false =>
      have hnone := hs.retired_none hret
      rw [if_neg (by simp [Disk.isThere, Table.contains, hnone])] at h
      rcases Job.yields_bind h with ⟨f, d₁, hcreate, hsync⟩ | ⟨c, hcreate, rfl⟩
      · rcases yields_createRetired hs hret (hmissing hret) ht hcreate with
          ⟨⟨c, hc⟩, -⟩ | ⟨f', hf, hs₁, hfile⟩
        · cases hc
        · obtain rfl := Except.ok.inj hf
          have hbase : d₁.checkBase = .ok () := if_pos hs₁.hasBase
          rcases Job.yields_perform_bind .syncNames (congrArg (·, d₁) hbase) hsync with
            hsync | ⟨herror, -, rfl⟩
          · obtain ⟨rfl, rfl⟩ := Program.Yields.eq_of_pure hsync
            exact .inr ⟨f, rfl, hs₁, hfile⟩
          · exact .inl ⟨herror, .inr hs₁⟩
      · rcases yields_createRetired hs hret (hmissing hret) ht hcreate with ⟨-, hs'⟩ | ⟨f, hf, -⟩
        · exact .inl ⟨⟨c, rfl⟩, hs'⟩
        · cases hf
  · exact .inl ⟨herror, .inl hs⟩

/-- Entries are appended to the log of the retired, or nothing has happened. -/
theorem yields_appendRetired {f : Log.File} {es : List Entry} {r : Except Fault Log.File}
    (hs : Stores d i F) (hf : d.nodes.get? retiredName = some (.file f.id (lines F.retired)))
    (h : (f.appendAll es).run.Yields fails d r d') :
    (∃ c, r = .error c) ∧ d' = d ∨ Stores d' i
      { F with retired := F.retired ++ es, retiredTail := [], hasRetired := true } := by
  have hwhole : Stores (d.append f.id (lines es)) i
      { F with retired := F.retired ++ es, retiredTail := [], hasRetired := true } :=
    hs.appendRetired hf (by simp)
  unfold Log.File.appendAll Log.File.appendBytes at h
  rcases Job.yields_perform_bind (.append f.id _) rfl h with h | ⟨herror, -, rfl⟩
  · rcases Job.yields_perform_bind (.syncFile f.id) rfl h with h | ⟨-, -, rfl⟩
    · obtain ⟨-, rfl⟩ := Program.Yields.eq_of_pure h
      exact .inr hwhole
    · exact .inr hwhole
  · exact .inl ⟨herror, rfl⟩

/-- The log is replaced by another file, or it is as it was. If it is not opened again then, nobody
has hold of it. -/
theorem yields_replaceAll {f : Log.File} {es : List Entry} {r : Except Fault Log.File}
    (hname : f.name = logName) (hs : Stores d i F)
    (h : (f.replaceAll es).run.Yields fails d r d') :
    (∃ c, r = .error c) ∧ Stores d' i F ∨
      ∃ j, j ≠ i ∧ Stores d' j { F with log := es, logTail := [] } ∧
        ∀ log, r = .ok log → log.id = j ∧ log.name = logName := by
  unfold Log.File.replaceAll at h
  rw [hname] at h
  rcases Job.yields_bind h with ⟨u, d₁, hwrite, h⟩ | ⟨c, hwrite, rfl⟩
  · obtain ⟨hs₁, hfile⟩ := yields_writeWhole isTempName_replacementName hs hwrite
    obtain ⟨j, hj⟩ : ∃ j, d₁.nodes.get? (Log.File.replacementName logName) =
        some (.file j (lines es)) := hfile rfl
    obtain ⟨d₂, hren, -, hs₂⟩ := hs₁.renameLog hj
    have hne : j ≠ i := by
      rintro rfl
      exact absurd (hs₁.sound.apart hj hs₁.log) (by decide)
    have hbase : d₂.checkBase = .ok () := if_pos hs₂.hasBase
    rcases Job.yields_perform_bind (.rename _ _) (congrArg (FileOp.changed d₁) hren) h with
      h | ⟨herror, -, rfl⟩
    · refine .inr ⟨j, hne, ?_⟩
      rcases Job.yields_perform_bind .syncNames (congrArg (·, d₂) hbase) h with
        h | ⟨⟨c, rfl⟩, -, rfl⟩
      · unfold Log.File.openLog at h
        rcases Job.yields_perform_bind (.openFile logName) (congrArg (·, d₂) hs₂.openFile_log) h
          with h | ⟨⟨c, rfl⟩, -, rfl⟩
        · obtain ⟨rfl, rfl⟩ := Program.Yields.eq_of_pure h
          refine ⟨hs₂, fun log hlog => ?_⟩
          obtain rfl := Except.ok.inj hlog
          exact ⟨rfl, rfl⟩
        · exact ⟨hs₂, nofun⟩
      · exact ⟨hs₂, nofun⟩
    · exact .inl ⟨herror, hs₁⟩
  · exact .inl ⟨⟨c, rfl⟩, (yields_writeWhole isTempName_replacementName hs hwrite).1⟩

end

/-- What a compaction may do to the log of the retired. -/
inductive Retires (l : Layer) (F : Files) : Files → Prop
  | nothing : Retires l F F
  | opened : Retires l F { F with hasRetired := true }
  | copied : Retires l F
      { F with retired := F.retired ++ l.unretired, retiredTail := [], hasRetired := true }

/-- What a compaction may come to, where any of its operations may fail. -/
inductive Compacts (l : Layer) (i : Nat) (F : Files) :
    Except Fault (Layer × Nat) → Nat → Files → Prop
  | kept {F' : Files} (f : Fault) : l.Retires F F' → Compacts l i F (.error f) i F'
  | cut {F' : Files} {r : Except Fault (Layer × Nat)} {j : Nat} : l.Retires F F' →
    F'.retired = F.retired ++ l.unretired → j ≠ i →
    (∀ p, r = .ok p → ∃ log : Log.File, log.id = j ∧ log.name = logName ∧
      p.1 = { l with log := log, unretired := [], endedInLog := 0 }) →
    Compacts l i F r j { F' with log := l.begun, logTail := [] }

section

variable {d d' : Disk} {fails : FileOp → Prop} {F' : Files}

theorem yields_replaceLog {r : Except Fault (Layer × Nat)} (hname : l.log.name = logName)
    (hs : Stores d i F') (hret : l.Retires F F') (hall : F'.retired = F.retired ++ l.unretired)
    (h : (l.log.replaceAll l.begun >>= fun log =>
      (pure ({ l with log := log, unretired := [], endedInLog := 0 }, l.endedInLog * 2) :
        Job (Layer × Nat))).run.Yields fails d r d') :
    ∃ j F₁, Stores d' j F₁ ∧ l.Compacts i F r j F₁ := by
  rcases Job.yields_bind h with ⟨log, d₁, hreplace, h⟩ | ⟨c, hreplace, rfl⟩
  · obtain ⟨rfl, rfl⟩ := Program.Yields.eq_of_pure h
    rcases yields_replaceAll hname hs hreplace with ⟨⟨c, hc⟩, -⟩ | ⟨j, hne, hs', hlog⟩
    · cases hc
    · obtain ⟨hid, hname'⟩ := hlog log rfl
      refine ⟨j, _, hs', .cut hret hall hne fun p hp => ?_⟩
      obtain rfl := Except.ok.inj hp
      exact ⟨log, hid, hname', rfl⟩
  · rcases yields_replaceAll hname hs hreplace with ⟨-, hs'⟩ | ⟨j, hne, hs', -⟩
    · exact ⟨i, _, hs', .kept c hret⟩
    · exact ⟨j, _, hs', .cut hret hall hne nofun⟩

theorem yields_compact {r : Except Fault (Layer × Nat)} (hs : Stores d i F)
    (hmissing : F.hasRetired = false → F.retired = []) (hl : l.Trails i F)
    (h : l.compact.run.Yields fails d r d') :
    ∃ j F₁, Stores d' j F₁ ∧ l.Compacts i F r j F₁ := by
  unfold compact at h
  split at h
  · rcases Job.yields_bind h with ⟨f, d₁, hopen, h⟩ | ⟨c, hopen, rfl⟩
    · rcases yields_openRetired hs hmissing hl.retiredTail hopen with
        ⟨⟨c, hc⟩, -⟩ | ⟨f', hf, hs₁, hfile⟩
      · cases hc
      · obtain rfl := Except.ok.inj hf
        rcases Job.yields_bind h with ⟨f', d₂, happend, h⟩ | ⟨c, happend, rfl⟩
        · rcases yields_appendRetired hs₁ hfile happend with ⟨⟨c, hc⟩, -⟩ | hs₂
          · cases hc
          · exact yields_replaceLog hl.name hs₂ .copied rfl h
        · rcases yields_appendRetired hs₁ hfile happend with ⟨-, rfl⟩ | hs₂
          · exact ⟨i, _, hs₁, .kept c .opened⟩
          · exact ⟨i, _, hs₂, .kept c .copied⟩
    · rcases yields_openRetired hs hmissing hl.retiredTail hopen with
        ⟨-, hs' | hs'⟩ | ⟨f, hf, -⟩
      · exact ⟨i, _, hs', .kept c .nothing⟩
      · exact ⟨i, _, hs', .kept c .opened⟩
      · cases hf
  · next hempty =>
    have hnil : l.unretired = [] := by simpa using hempty
    exact yields_replaceLog hl.name hs .nothing (by rw [hnil, List.append_nil]) h

end

/-! ## What compactions leave -/

section

variable {F' : Files} {j : Nat} {r : Except Fault (Layer × Nat)}

theorem Retires.log (h : l.Retires F F') : F'.log = F.log := by cases h <;> rfl

theorem Retires.logTail (h : l.Retires F F') : F'.logTail = F.logTail := by cases h <;> rfl

theorem Retires.state (h : l.Retires F F') : F'.state = F.state := by cases h <;> rfl

theorem Retires.retired (h : l.Retires F F') :
    F'.retired = F.retired ∨ F'.retired = F.retired ++ l.unretired := by
  cases h with
  | nothing | opened => exact .inl rfl
  | copied => exact .inr rfl

theorem Retires.retiredTail (h : l.Retires F F') (ht : F.retiredTail = []) :
    F'.retiredTail = [] := by
  cases h with
  | nothing | opened => exact ht
  | copied => rfl

theorem Retires.mem_retired (h : l.Retires F F') {e : Entry} (he : e ∈ F'.retired) :
    e ∈ F.retired ∨ e ∈ l.unretired := by
  rcases h.retired with heq | heq <;> rw [heq] at he
  · exact .inl he
  · exact List.mem_append.mp he

theorem Retires.subset (h : l.Retires F F') : F.retired ⊆ F'.retired := by
  rcases h.retired with heq | heq <;> rw [heq]
  · exact List.Subset.refl _
  · exact List.subset_append_left _ _

theorem Trails.retires (hl : l.Trails i F) (h : l.Retires F F') : l.Trails i F' where
  id := hl.id
  name := hl.name
  logTail := h.logTail.trans hl.logTail
  retiredTail := h.retiredTail hl.retiredTail
  state := hl.state.trans h.state.symm
  begun e he := h.log ▸ hl.begun e he
  unretired e he := h.log ▸ hl.unretired e he
  ended t ht := (hl.ended t ht).imp_right fun ht => List.map_subset Entry.tx h.subset ht
  known t ht := by
    rw [h.log] at ht
    rcases ht with ht | ht
    · exact hl.known t (.inl ht)
    · obtain ⟨e, he, rfl⟩ := List.mem_map.mp ht
      rcases h.mem_retired he with he | he
      · exact hl.known e.tx (.inr (List.mem_map_of_mem he))
      · exact hl.known e.tx (.inl (hl.unretired e he).2.2)
  undo := hl.undo

/-- The log is reduced to what is begun once the ends of all other transactions are retired. -/
theorem Trails.compact (hl : l.Trails i F') (hall : ∀ e ∈ l.unretired, e ∈ F'.retired)
    {log : Log.File} (hname : log.name = logName) :
    ({ l with log := log, unretired := [], endedInLog := 0 } : Layer).Trails log.id
      { F' with log := l.begun, logTail := [] } := by
  have hended : ∀ t ∈ l.ended, t ∈ F'.retired.map Entry.tx := fun t ht =>
    (hl.ended t ht).elim (fun ht => List.map_subset Entry.tx hall ht) id
  have hnone : endedIn l.begun = [] := Log.endedIn_eq_nil fun e he => (hl.begun e he).2
  exact { hl with
    id := rfl
    name := hname
    logTail := rfl
    begun := fun e he => ⟨he, (hl.begun e he).2⟩
    unretired := nofun
    ended := fun t ht => .inr (hended t ht)
    known := fun t ht => by
      rw [hnone] at ht
      exact hl.known t (.inr (ht.resolve_left List.not_mem_nil)) }

theorem Retires.credible (h : l.Retires F F') (hF : F.Credible) (hl : l.Trails i F) :
    F'.Credible where
  log_sound e he := hF.log_sound e (h.log ▸ he)
  log_torn := h.logTail ▸ hF.log_torn
  retired_sound e he := (h.mem_retired he).elim (hF.retired_sound e) fun he => (hl.unretired e he).1
  retired_torn := by
    rw [h.retiredTail hl.retiredTail]
    exact Log.isTorn_nil
  retired_missing := by
    cases h with
    | nothing => exact hF.retired_missing
    | opened | copied => nofun
  undo_known := (hl.retires h).undo_known
  intact := h.state ▸ hF.intact
  reverted_intact := h.state ▸ hF.reverted_intact

theorem Compacts.credible (h : l.Compacts i F r j F') (hF : F.Credible) (hl : l.Trails i F) :
    F'.Credible := by
  cases h with
  | kept f hret => exact hret.credible hF hl
  | @cut F' _ _ hret hall =>
    have hall' : ∀ e ∈ l.unretired, e ∈ F'.retired := fun e he => by
      rw [hall]
      exact List.mem_append_right _ he
    have hname : (⟨l.dir, logName, j, 0⟩ : Log.File).name = logName := rfl
    have hl' := (hl.retires hret).compact hall' hname
    exact { hret.credible hF hl with
      log_sound := fun e he => hF.log_sound e (hl.begun e he).1
      log_torn := Log.isTorn_nil
      undo_known := hl'.undo_known }

theorem Compacts.state (h : l.Compacts i F r j F') : F'.state = F.state := by
  cases h with
  | kept f hret | cut hret => exact hret.state

theorem Compacts.rests (h : l.Compacts i F r j F') (hr : l.Rests F) : l.Rests F' where
  begun := hr.begun
  closed u hu := by
    cases h with
    | kept f hret => exact hret.log ▸ hr.closed u hu
    | cut =>
      rw [hr.begun]
      exact List.not_mem_nil

/-- An end that is in the log, or is retired, is still in one of them. -/
theorem Compacts.mem (h : l.Compacts i F r j F') {e : Entry}
    (he : e ∈ F.log ∧ e ∈ l.unretired ∨ e ∈ F.retired) : e ∈ F'.log ∨ e ∈ F'.retired := by
  cases h with
  | kept f hret => exact he.imp (fun he => hret.log ▸ he.1) fun he => hret.subset he
  | cut hret hall =>
    refine .inr (show e ∈ _ from hall ▸ List.mem_append.mpr ?_)
    exact he.symm.imp_right And.right

end

/-- What a layer knows of its files between two calls. -/
structure Attends (l : Layer) (i : Nat) (F : Files) : Prop extends l.Trails i F where
  rests : l.fault = none → l.Rests F

theorem Mirrors.attends (hl : l.Mirrors i F) (hF : F.Legible)
    (hidle : l.fault = none → l.begun = []) : l.Attends i F :=
  ⟨hl.trails hF, fun hserves => hl.rests (hidle hserves)⟩

/-- A compaction keeps what a layer knows of its files, unless it leaves the layer with a log that
is not under the log's name any more. -/
theorem Compacts.attends {r : Except Fault (Layer × Nat)} {j : Nat} {F' : Files}
    (h : l.Compacts i F r j F') (hl : l.Attends i F) :
    match r with
    | .ok p => p.1.Attends j F'
    | .error _ => j = i → l.Attends i F' := by
  cases h with
  | kept f hret =>
    exact fun _ => ⟨hl.toTrails.retires hret, fun hserves =>
      (Compacts.kept (i := i) f hret).rests (hl.rests hserves)⟩
  | @cut F' _ _ hret hall hne hr =>
    cases r with
    | error f => exact fun heq => absurd heq hne
    | ok p =>
      obtain ⟨log, rfl, hname, hp⟩ := hr p rfl
      have hall' : ∀ e ∈ l.unretired, e ∈ F'.retired := fun e he => by
        rw [hall]
        exact List.mem_append_right _ he
      dsimp only
      rw [hp]
      refine ⟨(hl.toTrails.retires hret).compact hall' hname, fun hserves => ?_⟩
      have hrests := (Compacts.cut (i := i) hret hall hne hr).rests (hl.rests hserves)
      exact { hrests with }

end Layer
end LedgerGate

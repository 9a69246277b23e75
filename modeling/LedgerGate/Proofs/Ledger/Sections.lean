import LedgerGate.Proofs.Ledger.Outcome
import LedgerGate.Proofs.Ledger.Recovery

/-!
# The sections of a commit

What a section of a commit makes of a layer and its files, where file operations may fail and other
transactions may be open. The section that changes the state comes to one of four ends
(`Layer.Concludes`), or an end of its transaction gets into the log without the layer's knowing it
(`Layer.Unsynced`). The last section changes neither the state nor what is open or committed
(`Layer.Undisturbed`).
-/

namespace LedgerGate

open Ledger
open Log (Entry lines openIn committedIn)

/-- The operations that may fail without having changed anything that counts. What was appended to
the log is in it even if waiting for it fails, so that is not one of them. -/
def FileOp.MayFail (log : Nat) : FileOp → Prop
  | syncFile i => i ≠ log
  | _ => True

namespace Layer

variable {d d' : Disk} {i : Nat} {F F' : Files} {l l' : Layer} {b e : Entry} {δ : Delta}

/-! ## Single steps -/

/-- Whether a layer appends to the log of files. -/
structure AppendsTo (l : Layer) (i : Nat) (F : Files) : Prop where
  id : l.log.id = i
  name : l.log.name = logName
  logTail : F.logTail = []

theorem Mirrors.appendsTo (hl : l.Mirrors i F) : l.AppendsTo i F := ⟨hl.id, hl.name, hl.logTail⟩

section

variable {fails : FileOp → Prop}

/-- An entry is in the log or nothing has happened. It is in the log also where only waiting for it
has failed. -/
theorem yields_append {f : Log.File} {r : Except Fault Log.File} (hs : Stores d i F)
    (hid : f.id = i) (ht : F.logTail = []) (h : (f.append e).run.Yields fails d r d') :
    (∃ n, r = .ok { f with length := n } ∧ Stores d' i { F with log := F.log ++ [e] }) ∨
      (∃ c, r = .error c) ∧
        (d' = d ∨ fails (.syncFile i) ∧ Stores d' i { F with log := F.log ++ [e] }) := by
  subst hid
  have hwhole := hs.appendEntry ht e
  unfold Log.File.append Log.File.appendBytes at h
  rcases Job.yields_perform_bind (.append f.id e.bytes) rfl h with h | ⟨herror, -, rfl⟩
  · rcases Job.yields_perform_bind (.syncFile f.id) rfl h with h | ⟨herror, hfails, rfl⟩
    · obtain ⟨rfl, rfl⟩ := Program.Yields.eq_of_pure h
      exact .inl ⟨_, rfl, hwhole⟩
    · exact .inr ⟨herror, .inr ⟨hfails, hwhole⟩⟩
  · exact .inr ⟨herror, .inl rfl⟩

/-- A step is in the log or nothing has happened, whichever operations fail. -/
theorem yields_logStep_any {r : Except Fault Layer} (hs : Stores d i F) (hl : l.AppendsTo i F)
    (h : (l.logStep e).run.Yields fails d r d') :
    (∃ log, r = .ok (l.noted log e) ∧ l.refuseStep e.op e.tx = none ∧ log.id = i ∧
        log.name = logName ∧ Stores d' i { F with log := F.log ++ [e] }) ∨
      (∃ f, r = .error f) ∧ (d' = d ∨ fails (.syncFile i) ∧ l.refuseStep e.op e.tx = none ∧
        Stores d' i { F with log := F.log ++ [e] }) := by
  unfold logStep at h
  split at h
  · next f _ =>
    obtain ⟨rfl, rfl⟩ := Program.Yields.eq_of_pure h
    exact .inr ⟨⟨f, rfl⟩, .inl rfl⟩
  · next hok =>
    rcases Job.yields_bind h with ⟨log, d₁, hfirst, hrest⟩ | ⟨f, hfirst, rfl⟩
    · rcases yields_append hs hl.id hl.logTail hfirst with ⟨n, hlog, hs'⟩ | ⟨⟨c, hc⟩, -⟩
      · obtain rfl := Except.ok.inj hlog
        obtain ⟨rfl, rfl⟩ := Program.Yields.eq_of_pure hrest
        exact .inl ⟨_, rfl, hok, hl.id, hl.name, hs'⟩
      · exact absurd hc nofun
    · rcases yields_append hs hl.id hl.logTail hfirst with ⟨n, hlog, -⟩ | ⟨-, hleft⟩
      · exact absurd hlog nofun
      · exact .inr ⟨⟨f, rfl⟩, hleft.imp_right fun ⟨hfails, hs'⟩ => ⟨hfails, hok, hs'⟩⟩

theorem yields_writeWhole {dir temp : String} {bytes : List UInt8} {r : Except Fault Unit}
    (ht : isTempName temp = true) (hs : Stores d i F)
    (h : (Log.File.writeWhole dir temp bytes).run.Yields fails d r d') :
    Stores d' i F ∧ (r = .ok () → ∃ j, d'.nodes.get? temp = some (.file j bytes)) := by
  unfold Log.File.writeWhole at h
  cases hc : d.create temp with
  | error c =>
    obtain ⟨⟨c, rfl⟩, rfl⟩ := Job.yields_perform_bind_error (.create temp)
      (congrArg (FileOp.opened d) hc) h
    exact ⟨hs, nofun⟩
  | ok p =>
    obtain ⟨j, d₁⟩ := p
    have hcontent := (hs.sound.opened_create hc).content
    obtain ⟨hs₁, happend⟩ := hs.createTemp ht hc
    rcases Job.yields_perform_bind (.create temp) (congrArg (FileOp.opened d) hc) h with
      h | ⟨⟨c, rfl⟩, -, rfl⟩
    · rcases Job.yields_perform_bind (.append j bytes) rfl h with h | ⟨⟨c, rfl⟩, -, rfl⟩
      · rcases Job.yields_perform_ok (.syncFile j) rfl h with ⟨-, rfl⟩ | ⟨⟨c, rfl⟩, -, rfl⟩
        · exact ⟨happend bytes, fun _ => ⟨j, Disk.get?_append_self bytes hcontent⟩⟩
        · exact ⟨happend bytes, nofun⟩
      · exact ⟨hs₁, nofun⟩
    · exact ⟨hs, nofun⟩

end

/-- A step is in the log, or nothing has happened. -/
theorem yields_logStep {r : Except Fault Layer} (hs : Stores d i F) (hl : l.Mirrors i F)
    (h : (l.logStep e).run.Yields (FileOp.MayFail i) d r d') :
    (∃ log, r = .ok (l.noted log e) ∧ l.refuseStep e.op e.tx = none ∧ log.id = i ∧
        log.name = logName ∧ Stores d' i { F with log := F.log ++ [e] }) ∨
      (∃ f, r = .error f) ∧ d' = d :=
  (yields_logStep_any hs hl.appendsTo h).imp_right fun ⟨herror, hleft⟩ =>
    ⟨herror, hleft.resolve_right fun hfails => hfails.1 rfl⟩

/-! ## The section that changes the state -/

/-- What the section of a commit that changes the state may make of a layer and its files. -/
inductive Concludes (l : Layer) (b : Entry) (time : UInt64) (intentHash : String) (δ : Delta)
    (F : Files) : Committed → Files → Prop
  /-- It stopped before the state file was replaced, or its end could not be logged. -/
  | stopped (reason : String) (f : Fault) :
    Concludes l b time intentHash δ F (l.halt reason, .error f) F
  | rolledBack {log : Log.File} (f : Fault) : log.id = l.log.id → log.name = logName →
    Concludes l b time intentHash δ F (l.noted log (b.ending .rollback time), .error f)
      { F with log := F.log ++ [b.ending .rollback time] }
  /-- It stopped when the state file was replaced. -/
  | installed {next : State} (reason : String) (f : Fault) :
    l.state.applied b.tx intentHash b.payloadHash δ = .ok next →
    Concludes l b time intentHash δ F ((l.follow next).halt reason, .error f)
      { F with state := next }
  | committed {next : State} {log : Log.File} :
    l.state.applied b.tx intentHash b.payloadHash δ = .ok next → log.id = l.log.id →
    log.name = logName →
    Concludes l b time intentHash δ F
      ((l.follow next).noted log (b.ending .commit time), .ok .committed)
      { F with state := next, log := F.log ++ [b.ending .commit time] }

/-- What the section may come to besides where waiting for the log fails: an end is in the log, and
the layer does not know of it. -/
inductive Unsynced (l : Layer) (b : Entry) (time : UInt64) (intentHash : String) (δ : Delta)
    (F : Files) : Committed → Files → Prop
  | rolledBack (reason : String) (f : Fault) :
    Unsynced l b time intentHash δ F (l.halt reason, .error f)
      { F with log := F.log ++ [b.ending .rollback time] }
  | committed {next : State} (reason : String) (f : Fault) :
    l.state.applied b.tx intentHash b.payloadHash δ = .ok next →
    Unsynced l b time intentHash δ F ((l.follow next).halt reason, .error f)
      { F with state := next, log := F.log ++ [b.ending .commit time] }

variable {c : Committed} {time : UInt64} {intentHash : String}

theorem Concludes.mirrors (h : l.Concludes b time intentHash δ F c F') (hb : b.IsSound)
    (hl : l.Mirrors i F) : c.1.Mirrors i F' := by
  cases h with
  | stopped => exact hl.halt _
  | rolledBack f hid hname =>
    exact hl.noted_terminal (by simp) (hb.ending .rollback time) (hid.trans hl.id) hname
  | @installed next reason f hn =>
    have hl' : (l.follow next).Mirrors i { F with state := next } := { hl with state := rfl }
    exact hl'.halt _
  | @committed next log hn hid hname =>
    have hl' : (l.follow next).Mirrors i { F with state := next } := { hl with state := rfl }
    exact hl'.noted_terminal (by simp) (hb.ending .commit time) (hid.trans hl.id) hname

/-- Where the state is the next one and the transaction is not committed, the section stopped when
the state file was replaced. -/
theorem Concludes.files_of_state {next : State}
    (h : l.Concludes b time intentHash δ F c F')
    (hn : l.state.applied b.tx intentHash b.payloadHash δ = .ok next) (hstate : c.1.state = next)
    (hnot : c.2 ≠ .ok .committed) : F' = { F with state := next } := by
  have hmoved : l.state ≠ next := fun heq => by
    have hversion := (State.version_applied hn).1
    rw [← heq] at hversion
    omega
  cases h with
  | stopped => exact absurd hstate hmoved
  | rolledBack => exact absurd ((state_noted ..).symm.trans hstate) hmoved
  | installed reason f hn' => rw [Except.ok.inj (hn'.symm.trans hn)]
  | committed => exact absurd rfl hnot

theorem Concludes.files_of_committed {next : State} (h : l.Concludes b time intentHash δ F c F')
    (hn : l.state.applied b.tx intentHash b.payloadHash δ = .ok next)
    (hc : c.2 = .ok .committed) :
    F' = { F with state := next, log := F.log ++ [b.ending .commit time] } := by
  cases h with
  | stopped | rolledBack | installed => cases hc
  | committed hn' => rw [Except.ok.inj (hn'.symm.trans hn)]

section

variable {fails : FileOp → Prop}

theorem yields_logRollback {f : Fault} (hs : Stores d i F) (hl : l.AppendsTo i F)
    (h : (l.logRollback b time f).Yields fails d c d') :
    ∃ F', Stores d' i F' ∧ (l.Concludes b time intentHash δ F c F' ∨
      fails (.syncFile i) ∧ l.Unsynced b time intentHash δ F c F') := by
  unfold logRollback at h
  obtain ⟨r, d₁, hlog, hrest⟩ := h.of_bind
  rcases yields_logStep_any hs hl hlog with ⟨log, rfl, -, hid, hname, hs'⟩ | ⟨⟨e, rfl⟩, hleft⟩
  · obtain ⟨rfl, rfl⟩ := hrest.eq_of_pure
    exact ⟨_, hs', .inl (.rolledBack f (hid.trans hl.id.symm) hname)⟩
  · obtain ⟨rfl, rfl⟩ := hrest.eq_of_pure
    rcases hleft with rfl | ⟨hfails, -, hs'⟩
    · exact ⟨F, hs, .inl (.stopped _ f)⟩
    · exact ⟨_, hs', .inr ⟨hfails, .rolledBack _ f⟩⟩

theorem yields_abort {temp : Option String} {f : Fault}
    (htemp : ∀ n, temp = some n → isTempName n = true) (hs : Stores d i F) (hl : l.AppendsTo i F)
    (h : (l.abort b time temp f).Yields fails d c d') :
    ∃ F', Stores d' i F' ∧ (l.Concludes b time intentHash δ F c F' ∨
      fails (.syncFile i) ∧ l.Unsynced b time intentHash δ F c F') := by
  cases temp with
  | none => exact yields_logRollback hs hl h
  | some n =>
    rw [abort_some] at h
    obtain ⟨r, d₁, hremove, hrest⟩ := h.of_bind
    refine yields_logRollback (d := d₁) ?_ hl hrest
    change Program.Yields _ (.perform (.remove n) _) d r d₁ at hremove
    cases hremove with
    | perform hdone =>
      obtain ⟨-, rfl⟩ := Program.Yields.eq_of_pure hdone
      show Stores (FileOp.changed d (d.remove n)).2 i F
      cases hr : d.remove n with
      | error e => exact hs
      | ok d₂ => exact hs.removeTemp (htemp n rfl) hr
    | fail e _ hdone =>
      obtain ⟨-, rfl⟩ := Program.Yields.eq_of_pure hdone
      exact hs

theorem yields_logEnd {next : State}
    (hn : l.state.applied b.tx intentHash b.payloadHash δ = .ok next)
    (hs : Stores d i { F with state := next }) (hl : l.AppendsTo i F)
    (h : ((l.follow next).logEnd b time).Yields fails d c d') :
    ∃ F', Stores d' i F' ∧ (l.Concludes b time intentHash δ F c F' ∨
      fails (.syncFile i) ∧ l.Unsynced b time intentHash δ F c F') := by
  have hl' : (l.follow next).AppendsTo i { F with state := next } := { hl with }
  unfold logEnd at h
  obtain ⟨r, d₁, hlog, hrest⟩ := h.of_bind
  rcases yields_logStep_any hs hl' hlog with ⟨log, rfl, -, hid, hname, hs'⟩ | ⟨⟨e, rfl⟩, hleft⟩
  · obtain ⟨rfl, rfl⟩ := hrest.eq_of_pure
    exact ⟨_, hs', .inl (.committed hn (hid.trans hl.id.symm) hname)⟩
  · obtain ⟨rfl, rfl⟩ := hrest.eq_of_pure
    rcases hleft with rfl | ⟨hfails, -, hs'⟩
    · exact ⟨_, hs, .inl (.installed _ e hn)⟩
    · exact ⟨_, hs', .inr ⟨hfails, .committed _ e hn⟩⟩

theorem yields_install {next : State} {j : Nat} {crash : Option CrashPoint}
    (hn : l.state.applied b.tx intentHash b.payloadHash δ = .ok next) (hs : Stores d i F)
    (htemp : d.nodes.get? (tempName b.tx) = some (.file j next.bytes)) (hl : l.AppendsTo i F)
    (h : (l.install b time next crash).Yields fails d c d') :
    ∃ F', Stores d' i F' ∧ (l.Concludes b time intentHash δ F c F' ∨
      fails (.syncFile i) ∧ l.Unsynced b time intentHash δ F c F') := by
  unfold install at h
  obtain ⟨r, d₁, hrename, hrest⟩ := h.of_bind
  obtain ⟨d₂, hren, hs₂⟩ := hs.renameState (isTempName_tempName b.tx) htemp
  rcases Job.yields_perform_ok (.rename _ _) (congrArg (FileOp.changed d) hren) hrename with
    ⟨rfl, rfl⟩ | ⟨⟨f, rfl⟩, -, rfl⟩
  · -- From here on the new state stays, whatever fails.
    obtain ⟨r, d₃, hsync, hend⟩ := hrest.of_bind
    have hbase : d₁.checkBase = .ok () := if_pos hs₂.hasBase
    rcases Job.yields_perform_ok .syncNames (congrArg (·, d₁) hbase) hsync with
      ⟨rfl, rfl⟩ | ⟨⟨f, rfl⟩, -, rfl⟩
    · dsimp only at hend
      split at hend
      · obtain ⟨rfl, rfl⟩ := hend.eq_of_pure
        exact ⟨_, hs₂, .inl (.installed _ _ hn)⟩
      · exact yields_logEnd hn hs₂ hl hend
    · obtain ⟨rfl, rfl⟩ := hend.eq_of_pure
      exact ⟨_, hs₂, .inl (.installed _ f hn)⟩
  · refine yields_abort (fun n hn => ?_) hs hl hrest
    obtain rfl := Option.some.inj hn
    exact isTempName_tempName b.tx

/-- Whichever operations fail, the section comes to one of its ends. -/
theorem yields_applyBegun_any {crash : Option CrashPoint} (hs : Stores d i F)
    (hl : l.AppendsTo i F) (h : (l.applyBegun b time intentHash δ crash).Yields fails d c d') :
    ∃ F', Stores d' i F' ∧ (l.Concludes b time intentHash δ F c F' ∨
      fails (.syncFile i) ∧ l.Unsynced b time intentHash δ F c F') := by
  have htemp : ∀ n, some (tempName b.tx) = some n → isTempName n = true := fun n hn =>
    Option.some.inj hn ▸ isTempName_tempName b.tx
  unfold applyBegun at h
  split at h
  · exact yields_abort (fun n hn => absurd hn (Option.some_ne_none n).symm) hs hl h
  · next next hn =>
    split at h
    · obtain ⟨rfl, rfl⟩ := h.eq_of_pure
      exact ⟨F, hs, .inl (.stopped _ _)⟩
    · obtain ⟨r, d₁, hwrite, hrest⟩ := h.of_bind
      obtain ⟨hs₁, hfile⟩ := yields_writeWhole (isTempName_tempName b.tx) hs hwrite
      cases r with
      | error f => exact yields_abort htemp hs₁ hl hrest
      | ok u =>
        obtain ⟨j, hj⟩ := hfile rfl
        dsimp only at hrest
        split at hrest
        · obtain ⟨rfl, rfl⟩ := hrest.eq_of_pure
          exact ⟨F, hs₁, .inl (.stopped _ _)⟩
        · exact yields_install hn hs₁ hj hl hrest

end

/-- The section comes to one of its ends where no waiting for the log fails. -/
theorem yields_applyBegun {crash : Option CrashPoint} (hs : Stores d i F) (hl : l.Mirrors i F)
    (h : (l.applyBegun b time intentHash δ crash).Yields (FileOp.MayFail i) d c d') :
    ∃ F', Stores d' i F' ∧ l.Concludes b time intentHash δ F c F' := by
  obtain ⟨F', hs', hend⟩ := yields_applyBegun_any hs hl.appendsTo h
  exact ⟨F', hs', hend.resolve_right fun hfails => hfails.1 rfl⟩

/-! ## The last section -/

/-- Whether the end by which a transaction was committed is retired, or is in the log and will be
retired. -/
def HasCommitted (l : Layer) (F : Files) (t : String) : Prop :=
  ∃ e : Entry, e.op = .commit ∧ e.tx = t ∧ (e ∈ F.log ∧ e ∈ l.unretired ∨ e ∈ F.retired)

theorem HasCommitted.mem_ids {t : String} (h : l.HasCommitted F t) : t ∈ F.ids := by
  obtain ⟨e, -, rfl, ⟨he, -⟩ | he⟩ := h
  · exact Files.mem_ids.mpr (.inl (List.mem_map_of_mem he))
  · exact Files.mem_ids.mpr (.inr (List.mem_map_of_mem he))

/-- A step that is logged lets no end be forgotten. -/
theorem HasCommitted.noted {t : String} (h : l.HasCommitted F t) (log : Log.File) (e : Entry) :
    (l.noted log e).HasCommitted { F with log := F.log ++ [e] } t := by
  obtain ⟨f, hop, ht, hf⟩ := h
  refine ⟨f, hop, ht, hf.imp_left fun ⟨hlog, hunretired⟩ => ⟨List.mem_append_left _ hlog, ?_⟩⟩
  unfold Layer.noted
  split
  · exact hunretired
  · exact List.mem_append_left _ hunretired

theorem hasCommitted_noted {log : Log.File} (hop : e.op = .commit) :
    (l.noted log e).HasCommitted { F with log := F.log ++ [e] } e.tx := by
  refine ⟨e, hop, rfl, .inl ⟨List.mem_append_right _ (List.mem_singleton_self e), ?_⟩⟩
  rw [Layer.noted, if_neg (by simp [hop])]
  exact List.mem_append_right _ (List.mem_singleton_self e)

/-- What a compaction leaves alone. -/
structure Undisturbed (l : Layer) (F : Files) (l' : Layer) (F' : Files) : Prop where
  repairs : F.Repairs F'
  state : F'.state = F.state
  opened : openIn F'.log = openIn F.log
  committed : ∀ t, l.HasCommitted F t → l'.HasCommitted F' t

theorem undisturbed_halt (l : Layer) (F : Files) (reason : String) :
    l.Undisturbed F (l.halt reason) F := ⟨.refl, rfl, rfl, fun _ => id⟩

theorem Compacted.undisturbed (h : l.Compacted F l' F') (hl : l.Mirrors i F)
    (hl' : l'.Mirrors l'.log.id F') (hstate : l'.state = l.state) : l.Undisturbed F l' F' where
  repairs := h.repairs
  state := hl'.state.symm.trans (hstate.trans hl.state)
  opened := hl'.begun.symm.trans (h.begun.trans hl.begun)
  committed := fun t ⟨e, hop, ht, he⟩ => by
    refine ⟨e, hop, ht, .inr ?_⟩
    rw [h.retired, List.mem_append]
    exact he.symm.imp_right And.right

theorem Retained.undisturbed (h : Retained F F') (hl : l.Mirrors i F) (hl' : l.Mirrors i F') :
    l.Undisturbed F l F' where
  repairs := h.repairs
  state := hl'.state.symm.trans hl.state
  opened := by rw [h.log]
  committed := fun t ⟨e, hop, ht, he⟩ => by
    refine ⟨e, hop, ht, ?_⟩
    rw [h.log]
    exact he.imp_right fun he => h.retired he

/-- What a compaction comes to. -/
theorem outcome_of_compact {r : Except Fault (Layer × Nat)} (hs : Stores d i F) (hF : F.Legible)
    (hl : l.Mirrors i F) (h : l.compact.run.run d = (r, d')) :
    match r with
    | .ok p => ∃ F', Stores d' p.1.log.id F' ∧ p.1.Mirrors p.1.log.id F' ∧ l.Undisturbed F p.1 F'
    | .error _ => ∃ F', Stores d' i F' ∧ l.Mirrors i F' ∧ l.Undisturbed F l F' := by
  have hF' : F.Coherent (Recovery.Within F) () := ⟨hF, .refl⟩
  have hkeeps : Safely Recovery.unseen (Recovery.Within F) l.compact
      (fun p _ e => ∃ F', Stores e p.1.log.id F' ∧ p.1.Mirrors p.1.log.id F' ∧ l.Compacted F p.1 F')
      (fun _ _ e => ∃ F', Stores e i F' ∧ l.Mirrors i F' ∧ Retained F F') () d :=
    safely_compact hs hF' hl (fun l' n e F' hs' hl' hc _ => ⟨F', hs', hl', hc⟩)
      fun f e F' _ hs' hr hl' => ⟨F', hs', hl', hr⟩
  obtain ⟨ds, he⟩ := Execution.exists_of_run h
  have hend := (he.keeps ⟨i, F, hs, hF'⟩ hkeeps).2 _ rfl
  cases r with
  | ok p =>
    obtain ⟨F', hs', hl', hc⟩ := hend
    have hstate : p.1.state = l.state := (returns_compact l d p (by rw [h])).1
    exact ⟨F', hs', hl', hc.undisturbed hl hl' hstate⟩
  | error f =>
    obtain ⟨F', hs', hl', hr⟩ := hend
    exact ⟨F', hs', hl', hr.undisturbed hl hl'⟩

/-- What the last section of a commit comes to. -/
theorem outcome_of_finish {crash : Option CrashPoint} (hs : Stores d i F) (hF : F.Legible)
    (hl : l.Mirrors i F) (h : (l.finish crash).run d = (c, d')) :
    ∃ j F', Stores d' j F' ∧ c.1.Mirrors j F' ∧ l.Undisturbed F c.1 F' := by
  unfold finish compactIfDue at h
  split at h
  · obtain ⟨rfl, rfl⟩ := Prod.mk.inj h
    exact ⟨i, F, hs, hl.halt _, undisturbed_halt l F _⟩
  · split at h
    · rw [Program.run_bind] at h
      rcases hcompact : l.compact.run.run d with ⟨r, d₁⟩
      have hend := outcome_of_compact hs hF hl hcompact
      rw [hcompact] at h
      cases r with
      | ok p =>
        obtain ⟨rfl, rfl⟩ := Prod.mk.inj h
        obtain ⟨F', hs', hl', hu⟩ := hend
        exact ⟨_, F', hs', hl', hu⟩
      | error f =>
        obtain ⟨rfl, rfl⟩ := Prod.mk.inj h
        obtain ⟨F', hs', hl', hu⟩ := hend
        exact ⟨i, F', hs', hl', hu⟩
    · obtain ⟨rfl, rfl⟩ := Prod.mk.inj h
      exact ⟨i, F, hs, hl, .refl, rfl, rfl, fun _ => id⟩

end Layer
end LedgerGate

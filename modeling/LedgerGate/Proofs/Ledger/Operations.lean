import LedgerGate.Proofs.Disk
import LedgerGate.Proofs.Execution
import LedgerGate.Proofs.Ledger.Files

/-!
# File operations of a ledger

What each step on the files of a ledger leaves behind, wherever it is stopped: the files are
coherent before and after it and in the middle of an append. Files with temporary names are
nobody's concern, but a directory that has such a name is never taken away, and then it is in
the way of the file.
-/

namespace LedgerGate.Ledger

open Log (Entry lines openIn endedIn IsTorn)

/-- The entries of the complete lines of a disk's log. -/
def logEntries (d : Disk) : List Entry := Log.entriesIn ((d.content? logName).getD [])

/-- Whether the disk holds the files of a ledger, of which the log is the file `i`. -/
structure Stores (d : Disk) (i : Nat) (F : Files) : Prop where
  sound : d.Sound
  hasBase : d.hasBase = true
  state : ∃ j, d.nodes.get? stateName = some (.file j F.state.bytes)
  log : d.nodes.get? logName = some (.file i (lines F.log ++ F.logTail))
  retired : d.content? retiredName =
    if F.hasRetired then some (lines F.retired ++ F.retiredTail) else none
  retired_file : d.nodes.get? retiredName ≠ some .directory
  blocked : ∀ n, isTempName n = true → (d.nodes.get? n = some .directory ↔ F.blocked n)

/-- Whether the disk holds files of which something is said. -/
def Consistent {η : Type} (J : η → Files → Prop) (h : η) (d : Disk) : Prop :=
  ∃ i F, Stores d i F ∧ F.Coherent J h

theorem content?_of_get? {d : Disk} {name : String} {i : Nat} {c : List UInt8}
    (h : d.nodes.get? name = some (.file i c)) : d.content? name = some c := by
  simp [Disk.content?, Disk.read, h, Except.toOption]

theorem content?_congr {d d' : Disk} {name : String}
    (h : d'.nodes.get? name = d.nodes.get? name) : d'.content? name = d.content? name := by
  simp only [Disk.content?, Disk.read, h]

theorem get?_of_content? {d : Disk} {name : String} {c : List UInt8}
    (h : d.content? name = some c) : ∃ i, d.nodes.get? name = some (.file i c) := by
  unfold Disk.content? Disk.read at h
  split at h
  · exact absurd h nofun
  · exact absurd h nofun
  · next i c' hn => exact ⟨i, by rw [hn, Option.some.inj h]⟩

theorem isTempName_tempName (label : String) : isTempName (tempName label) = true := by
  have hp : (stateName ++ ".").toList <+: (tempName label).toList :=
    ⟨label.toList ++ ".tmp".toList, by simp [tempName]⟩
  have hs : ".tmp".toList <:+ (tempName label).toList :=
    ⟨stateName.toList ++ ".".toList ++ label.toList, by simp [tempName]⟩
  rw [isTempName, List.isPrefixOf_iff_prefix.mpr hp, List.isSuffixOf_iff_suffix.mpr hs]
  rfl

/-- Whether a disk has no file with a temporary name that another one has not. -/
def FewerTemps (d d' : Disk) : Prop :=
  ∀ n, isTempName n = true → d'.nodes.get? n = none ∨ d'.nodes.get? n = d.nodes.get? n

theorem isTempName_replacementName : isTempName (Log.File.replacementName logName) = true := by
  simp [isTempName]

section

variable {α η : Type} {note : η → List Entry → η} {J : η → Files → Prop} {h : η}
  {d d' : Disk} {i : Nat} {F F' : Files}

theorem Stores.logEntries_of_sound (hs : Stores d i F) (hsound : ∀ e ∈ F.log, e.IsSound)
    (htorn : IsTorn F.logTail) : logEntries d = F.log := by
  rw [Ledger.logEntries, content?_of_get? hs.log, Option.getD_some]
  exact Log.entriesIn_lines (Log.fits_of_sound hsound) htorn.1

theorem Stores.logEntries (hs : Stores d i F) (hF : F.Legible) : logEntries d = F.log :=
  hs.logEntries_of_sound hF.log_sound hF.log_torn

theorem Stores.openFile_log (hs : Stores d i F) :
    d.openFile logName = .ok (i, (lines F.log ++ F.logTail).length) := by
  simp [Disk.openFile, hs.log]

theorem Stores.get?_retired (hs : Stores d i F) (hthere : F.hasRetired = true) :
    ∃ k, d.nodes.get? retiredName = some (.file k (lines F.retired ++ F.retiredTail)) :=
  get?_of_content? (hs.retired.trans (if_pos hthere))

theorem Stores.retired_none (hs : Stores d i F) (hnot : F.hasRetired = false) :
    d.nodes.get? retiredName = none := by
  have hnone := hs.retired
  have hfile := hs.retired_file
  rw [hnot, if_neg Bool.false_ne_true] at hnone
  unfold Disk.content? Disk.read at hnone
  split at hnone
  · assumption
  · next hdir => exact absurd hdir hfile
  · exact absurd hnone nofun

/-- A change that makes and takes away no directory leaves the files of a ledger behind if it
leaves the three of them. -/
theorem Stores.update (hs : Stores d i F) (hd : d'.Sound) (hb : d'.hasBase = d.hasBase)
    (hdirs : Disk.SameDirectories d d') {i' : Nat} (hblocked : F'.blocked = F.blocked)
    (hstate : ∃ j, d'.nodes.get? stateName = some (.file j F'.state.bytes))
    (hlog : d'.nodes.get? logName = some (.file i' (lines F'.log ++ F'.logTail)))
    (hretired : d'.content? retiredName =
      if F'.hasRetired then some (lines F'.retired ++ F'.retiredTail) else none) :
    Stores d' i' F' where
  sound := hd
  hasBase := hb.trans hs.hasBase
  state := hstate
  log := hlog
  retired := hretired
  retired_file := fun h => hs.retired_file ((hdirs _).mp h)
  blocked := fun n hn => by rw [hdirs n, hblocked]; exact hs.blocked n hn

/-- Files with temporary names may change. -/
theorem Stores.frame (hs : Stores d i F) (hd : d'.Sound) (hb : d'.hasBase = d.hasBase)
    (hdirs : Disk.SameDirectories d d')
    (hsame : ∀ n, isTempName n = false → d'.nodes.get? n = d.nodes.get? n) : Stores d' i F := by
  refine hs.update hd hb hdirs rfl ?_ ((hsame logName (by decide)).trans hs.log) ?_
  · exact (hsame stateName (by decide)).symm ▸ hs.state
  · exact (content?_congr (hsame retiredName (by decide))).trans hs.retired

/-- The file of one temporary name may change. -/
theorem Stores.frameTemp (hs : Stores d i F) {temp : String} (ht : isTempName temp = true)
    (hd : d'.Sound) (hb : d'.hasBase = d.hasBase) (hdirs : Disk.SameDirectories d d')
    (hsame : Disk.SameBut temp d d') : Stores d' i F :=
  hs.frame hd hb hdirs fun n hn => hsame n fun heq => by
    rw [heq, ht] at hn
    exact absurd hn nofun

theorem Stores.removeTemp (hs : Stores d i F) {temp : String} (ht : isTempName temp = true)
    (hrem : d.remove temp = .ok d') : Stores d' i F := by
  have hr := hs.sound.removed hrem
  have hfile : d.nodes.get? temp ≠ some .directory := fun hdir => by
    obtain ⟨e, he⟩ := Disk.remove_error_iff.mpr (.inr hdir)
    exact absurd (hrem.symm.trans he) nofun
  exact hs.frameTemp ht hr.sound hr.hasBase (hr.sameDirectories hfile) hr.sameBut

/-- A temporary file can be created and written to. -/
theorem Stores.createTemp (hs : Stores d i F) {temp : String} (ht : isTempName temp = true)
    {j : Nat} (hc : d.create temp = .ok (j, d')) :
    Stores d' i F ∧ ∀ bytes, Stores (d'.append j bytes) i F := by
  have hopen := hs.sound.opened_create hc
  have hfree : d.nodes.get? temp ≠ some .directory := fun hdir => by
    obtain ⟨e, he⟩ := (Disk.create_error_iff hs.hasBase).mpr hdir
    exact absurd (hc.symm.trans he) nofun
  have hs' := hs.frameTemp ht hopen.sound hopen.hasBase (hopen.sameDirectories hfree) hopen.sameBut
  exact ⟨hs', fun bytes => hs'.frameTemp ht (hopen.sound.append j bytes) rfl
    (Disk.sameDirectories_append d' j bytes) (hopen.sound.sameBut_append bytes hopen.content)⟩

/-- A temporary file that holds a state can be renamed over the state file. -/
theorem Stores.renameState (hs : Stores d i F) {temp : String} (ht : isTempName temp = true)
    {j : Nat} {s : State} (htemp : d.nodes.get? temp = some (.file j s.bytes)) : ∃ d',
    d.rename temp stateName = .ok d' ∧ Stores d' i { F with state := s } := by
  have hne : temp ≠ stateName := by
    rintro rfl
    exact absurd ht (by decide)
  obtain ⟨k, hk⟩ := hs.state
  obtain ⟨d₁, hren⟩ := Disk.rename_ok htemp hk
  have hr := hs.sound.renamed hne hren
  have hsame : ∀ n, isTempName n = false → n ≠ stateName → d₁.nodes.get? n = d.nodes.get? n :=
    fun n hn hn' => hr.others n (by rintro rfl; rw [ht] at hn; exact absurd hn nofun) hn'
  refine ⟨d₁, hren, hs.update hr.sound hr.hasBase (hr.sameDirectories htemp (by simp [hk])) rfl
    ⟨j, hr.arrived.trans htemp⟩ ((hsame logName (by decide) (by decide)).trans hs.log) ?_⟩
  exact (content?_congr (hsame retiredName (by decide) (by decide))).trans hs.retired

/-! ## Single operations -/

/-- What a job does safely: wherever it stops, what is said of the files holds of them, after a
look at their log. -/
abbrev Safely (note : η → List Entry → η) (J : η → Files → Prop) (x : Job α)
    (Q : α → η → Disk → Prop) (E : Fault → η → Disk → Prop) : η → Disk → Prop :=
  x.Keeps (fun h d => note h (logEntries d)) (Consistent J) Q E

variable {E : Fault → η → Disk → Prop} {path : String} {op : FileOp} [Noting note J]

/-- Nothing new is seen on a consistent disk. -/
theorem Stores.look (note : η → List Entry → η) [Noting note J] (hs : Stores d i F)
    (hF : F.Coherent J h) : note h (Ledger.logEntries d) = h := by
  rw [hs.logEntries hF.toLegible]
  exact hF.look

/-- An operation with its answer, after which the files hold what they should. -/
theorem safely_perform {Q : op.Reply → η → Disk → Prop} {r : Except FileError op.Reply}
    (happly : op.apply d = (r, d')) (hF : F.Coherent J h)
    (htear : ∀ d₁, op.Tears d d₁ → Stores d₁ i F) (hs : Stores d' i F)
    (hQ : ∀ a, r = .ok a → Q a h d') (hE : ∀ e, r = .error e → E (.io path e.message) h d') :
    Safely note J (Job.perform path op) Q E h d := by
  refine Job.keeps_perform (fun d₁ hd₁ => ?_) ?_ ?_ ?_
  · have hs₁ := htear d₁ hd₁
    rw [hs₁.look note hF]
    exact ⟨i, F, hs₁, hF⟩
  all_goals rw [happly, hs.look note hF]
  · exact ⟨i, F, hs, hF⟩
  · exact hQ
  · exact hE

/-- An operation that reads. -/
theorem safely_look {Q : op.Reply → η → Disk → Prop} (hs : Stores d i F)
    (hF : F.Coherent J h) (hop : (op.apply d).2 = d) (htear : ∀ d', ¬ op.Tears d d')
    (hQ : ∀ a, (op.apply d).1 = .ok a → Q a h d)
    (hE : ∀ e, (op.apply d).1 = .error e → E (.io path e.message) h d) :
    Safely note J (Job.perform path op) Q E h d :=
  Job.keeps_look hop htear ⟨i, F, hs, hF⟩ (hs.look note hF) hQ hE

theorem safely_syncNames {Q : Unit → η → Disk → Prop} (hs : Stores d i F)
    (hF : F.Coherent J h) (hQ : Q () h d) :
    Safely note J (Job.perform path .syncNames) Q E h d :=
  safely_look hs hF rfl (fun _ => id) (fun _ _ => hQ) fun e he => by
    simp [FileOp.apply, Disk.checkBase, hs.hasBase] at he

theorem safely_syncFile {Q : Unit → η → Disk → Prop} {j : Nat} (hs : Stores d i F)
    (hF : F.Coherent J h) (hQ : Q () h d) :
    Safely note J (Job.perform path (.syncFile j)) Q E h d :=
  safely_look hs hF rfl (fun _ => id) (fun _ _ => hQ) nofun

/-! ## Temporary files -/

/-- A temporary file is written, unless a directory is in its way. -/
theorem safely_writeWhole {Q : Unit → η → Disk → Prop} {dir temp : String}
    {bytes : List UInt8} (ht : isTempName temp = true) (hs : Stores d i F) (hF : F.Coherent J h)
    (hQ : ∀ d' j, Stores d' i F → d'.nodes.get? temp = some (.file j bytes) →
      Disk.SameBut temp d d' → Q () h d')
    (hE : ∀ f, F.blocked temp → E f h d) :
    Safely note J (Log.File.writeWhole dir temp bytes) Q E h d := by
  unfold Log.File.writeWhole
  refine Job.Keeps.bind ?_
  cases hc : d.create temp with
  | error e =>
    have hblocked := (hs.blocked temp ht).mp ((Disk.create_error_iff hs.hasBase).mp ⟨e, hc⟩)
    exact safely_perform (congrArg (FileOp.opened d) hc) hF nofun hs nofun fun _ _ => hE _ hblocked
  | ok p =>
    obtain ⟨j, d₁⟩ := p
    have hopen := hs.sound.opened_create hc
    obtain ⟨hs₁, happend⟩ := hs.createTemp ht hc
    refine safely_perform (congrArg (FileOp.opened d) hc) hF nofun hs₁ (fun j' hj' => ?_) nofun
    obtain rfl := Except.ok.inj hj'
    refine Job.Keeps.bind (safely_perform rfl hF ?_ (happend bytes) (fun _ _ => ?_) nofun)
    · rintro d₂ ⟨k, rfl⟩
      exact happend _
    · refine safely_syncFile (happend bytes) hF (hQ _ j (happend bytes) ?_ fun n hn => ?_)
      · exact Disk.get?_append_self bytes hopen.content
      · exact (hopen.sound.sameBut_append bytes hopen.content n hn).trans (hopen.sameBut n hn)

/-- A temporary file that holds a state takes the place of the state file. -/
theorem safely_renameState {Q : Unit → η → Disk → Prop} {temp : String} {j : Nat} {s : State}
    (ht : isTempName temp = true) (hs : Stores d i F)
    (htemp : d.nodes.get? temp = some (.file j s.bytes))
    (hF' : Files.Coherent J h { F with state := s })
    (hQ : ∀ d', Stores d' i { F with state := s } → Q () h d') :
    Safely note J (Job.perform path (.rename temp stateName)) Q E h d := by
  obtain ⟨d₁, hren, hs₁⟩ := hs.renameState ht htemp
  exact safely_perform (congrArg (FileOp.changed d) hren) hF' nofun hs₁
    (fun _ _ => hQ d₁ hs₁) nofun

/-! ## The log -/

omit [Noting note J] in
theorem Stores.appendLog (hs : Stores d i F) {bytes tail : List UInt8} {log : List Entry}
    (hb : lines F.log ++ F.logTail ++ bytes = lines log ++ tail) :
    Stores (d.append i bytes) i { F with log := log, logTail := tail } := by
  have hsame := hs.sound.sameBut_append bytes hs.log
  refine hs.update (hs.sound.append i bytes) rfl (Disk.sameDirectories_append d i bytes) rfl
    ?_ ?_ ?_
  · exact (hsame stateName (by decide)).symm ▸ hs.state
  · rw [Disk.get?_append_self bytes hs.log, hb]
  · exact (content?_congr (hsame retiredName (by decide))).trans hs.retired

omit [Noting note J] in
theorem Stores.appendEntry (hs : Stores d i F) (ht : F.logTail = []) (e : Entry) :
    Stores (d.append i e.bytes) i { F with log := F.log ++ [e] } := by
  have hbytes : lines F.log ++ F.logTail ++ e.bytes = lines (F.log ++ [e]) ++ F.logTail := by
    simp [ht]
  exact hs.appendLog hbytes

/-- An entry is appended to the log. It counts as soon as its line is complete. -/
theorem safely_append [Lasting J] {Q : Log.File → η → Disk → Prop} {f : Log.File} {e : Entry}
    (hs : Stores d i F) (hF : F.Coherent J h) (hid : f.id = i) (ht : F.logTail = [])
    (he : e.IsSound)
    (hF' : Files.Coherent J (note h (F.log ++ [e])) { F with log := F.log ++ [e] })
    (hQ : ∀ d' n, Stores d' i { F with log := F.log ++ [e] } →
      Q { f with length := n } (note h (F.log ++ [e])) d') :
    Safely note J (f.append e) Q E h d := by
  subst hid
  have hwhole := hs.appendEntry ht e
  have hseen : logEntries (d.append f.id e.bytes) = F.log ++ [e] := hwhole.logEntries hF'.toLegible
  unfold Log.File.append Log.File.appendBytes
  refine Job.Keeps.bind (Job.keeps_perform ?_ ?_ (fun _ _ => ?_) nofun)
  · rintro d' ⟨k, rfl⟩
    rcases Log.take_bytes he.fits k with hk | hk
    · rw [hk, hseen]
      exact ⟨f.id, _, hwhole, hF'⟩
    · have hF₁ := hF.repair (.tail hk)
      have hs₁ : Stores (d.append f.id (e.bytes.take k)) f.id
          { F with logTail := e.bytes.take k } := hs.appendLog (by simp [ht])
      rw [hs₁.look note hF₁]
      exact ⟨f.id, _, hs₁, hF₁⟩
  · show Consistent J (note h (logEntries (d.append f.id e.bytes))) (d.append f.id e.bytes)
    rw [hseen]
    exact ⟨f.id, _, hwhole, hF'⟩
  · show Safely note J _ Q E (note h (logEntries (d.append f.id e.bytes)))
      (d.append f.id e.bytes)
    rw [hseen]
    exact Job.Keeps.bind (safely_syncFile hwhole hF' (Job.keeps_pure (hQ _ _ hwhole)))

/-- The torn line behind the log is cut off. -/
theorem safely_cutLog [Lasting J] {Q : Unit → η → Disk → Prop} {dir : String} {o : Option Nat}
    (ho : o = if F.logTail = [] then none else some (lines F.log).length) (hs : Stores d i F)
    (hF : F.Coherent J h) (hQ : ∀ d', Stores d' i { F with logTail := [] } → Q () h d') :
    Safely note J (Recovery.cutTail dir logName o) Q E h d := by
  subst ho
  split
  · next ht => exact Job.keeps_pure (hQ d (ht ▸ hs))
  · unfold Recovery.cutTail Log.truncate
    obtain ⟨d₁, hc⟩ : ∃ d₁, d.setLength logName (lines F.log).length = .ok d₁ :=
      Disk.setLength_ok hs.log (by simp)
    have hr := hs.sound.resized hc
    have hlog := hr.content hs.log
    have hs₁ : Stores d₁ i { F with logTail := [] } := by
      refine hs.update hr.sound hr.hasBase
        (hr.sameBut.sameDirectories (by simp [hs.log]) (by simp [hlog])) rfl
        ((hr.sameBut stateName (by decide)).symm ▸ hs.state) (by simpa [Disk.resize] using hlog) ?_
      exact (content?_congr (hr.sameBut retiredName (by decide))).trans hs.retired
    exact safely_perform (congrArg (FileOp.changed d) hc) (hF.repair (.tail Log.isTorn_nil)) nofun
      hs₁ (fun _ _ => hQ d₁ hs₁) nofun

theorem safely_openLog {Q : Log.File → η → Disk → Prop} {dir : String} (hs : Stores d i F)
    (hF : F.Coherent J h) (hQ : ∀ n, Q ⟨dir, logName, i, n⟩ h d) :
    Safely note J (Log.File.openLog dir logName) Q E h d := by
  unfold Log.File.openLog
  refine Job.Keeps.bind (safely_look hs hF rfl (fun _ => id) (fun p hp => ?_) fun e he => ?_)
  · obtain rfl := Except.ok.inj (hs.openFile_log.symm.trans hp)
    exact Job.keeps_pure (hQ _)
  · exact absurd (hs.openFile_log.symm.trans he) nofun

omit [Noting note J] in
/-- A new file that holds entries can be renamed over the log. -/
theorem Stores.renameLog (hs : Stores d i F) {j : Nat} {es : List Entry}
    (htemp : d.nodes.get? (Log.File.replacementName logName) = some (.file j (lines es))) :
    ∃ d', d.rename (Log.File.replacementName logName) logName = .ok d' ∧
      Disk.Renamed d (Log.File.replacementName logName) logName d' ∧
      Stores d' j { F with log := es, logTail := [] } := by
  have hne : Log.File.replacementName logName ≠ logName := by decide
  obtain ⟨d', hren⟩ := Disk.rename_ok htemp hs.log
  have hr := hs.sound.renamed hne hren
  have hsame : ∀ n, isTempName n = false → n ≠ logName → d'.nodes.get? n = d.nodes.get? n := by
    intro n hn hn'
    refine hr.others n ?_ hn'
    rintro rfl
    exact absurd (isTempName_replacementName.symm.trans hn) nofun
  refine ⟨d', hren, hr, hs.update hr.sound hr.hasBase
    (hr.sameDirectories htemp (by simp [hs.log])) rfl
    ((hsame stateName (by decide) (by decide)).symm ▸ hs.state) ?_ ?_⟩
  · rw [hr.arrived, htemp, List.append_nil]
  · exact (content?_congr (hsame retiredName (by decide) (by decide))).trans hs.retired

/-- The log is replaced by the entries of open transactions, unless a directory is in the way
of the new file. -/
theorem safely_replaceAll {Q : Log.File → η → Disk → Prop} {f : Log.File} {es : List Entry}
    (hname : f.name = logName) (hs : Stores d i F) (hF : F.Coherent J h)
    (hF' : Files.Coherent J h { F with log := es, logTail := [] })
    (hQ : ∀ f' d', f'.name = logName → Stores d' f'.id { F with log := es, logTail := [] } →
      FewerTemps d d' → Q f' h d')
    (hE : ∀ f, F.blocked (Log.File.replacementName logName) → E f h d) :
    Safely note J (f.replaceAll es) Q E h d := by
  unfold Log.File.replaceAll
  rw [hname]
  refine Job.Keeps.bind (safely_writeWhole isTempName_replacementName hs hF
    (fun d₁ j hs₁ htemp hsame₁ => ?_) hE)
  have hfile : d₁.nodes.get? (Log.File.replacementName logName) = some (.file j (lines es)) := htemp
  obtain ⟨d₂, hren, hr, hs₂⟩ := hs₁.renameLog hfile
  have hfewer : FewerTemps d d₂ := by
    intro n hn
    by_cases hn' : n = Log.File.replacementName logName
    · exact .inl (hn' ▸ hr.gone)
    · refine .inr ((hr.others n hn' ?_).trans (hsame₁ n hn'))
      rintro rfl
      exact absurd hn (by decide)
  refine Job.Keeps.bind (safely_perform (congrArg (FileOp.changed d₁) hren) hF' nofun hs₂
    (fun _ _ => ?_) nofun)
  refine Job.Keeps.bind (safely_syncNames hs₂ hF' ?_)
  exact safely_openLog hs₂ hF' fun n => hQ _ d₂ rfl hs₂ hfewer

/-! ## The log of the retired -/

omit [Noting note J] in
theorem Stores.withRetired (hs : Stores d i F) (hd : d'.Sound) (hb : d'.hasBase = d.hasBase)
    (hsame : Disk.SameBut retiredName d d') {k : Nat} {es : List Entry} {tail : List UInt8}
    (hc : d'.nodes.get? retiredName = some (.file k (lines es ++ tail))) :
    Stores d' i { F with retired := es, retiredTail := tail, hasRetired := true } := by
  refine hs.update hd hb (hsame.sameDirectories hs.retired_file (by simp [hc])) rfl ?_
    ((hsame logName (by decide)).trans hs.log) (content?_of_get? hc)
  exact (hsame stateName (by decide)).symm ▸ hs.state

omit [Noting note J] in
theorem Files.Rearrange.retire {es : List Entry} {tail : List UInt8}
    (hes : ∀ e ∈ es, e.IsSound ∧ e.op ≠ .begin ∧ e.tx ∈ endedIn F.log) (ht : IsTorn tail) :
    F.Rearrange { F with
      retired := F.retired ++ es, retiredTail := tail, hasRetired := true } :=
  ⟨.retire hes ht, rfl, rfl⟩

omit [Noting note J] in
theorem Files.Rearrange.openRetired (ht : F.retiredTail = []) :
    F.Rearrange { F with hasRetired := true } := by
  have hr : F.Rearrange
      { F with retired := F.retired ++ [], retiredTail := [], hasRetired := true } :=
    .retire nofun Log.isTorn_nil
  rw [List.append_nil, ← ht] at hr
  exact hr

omit [Noting note J] in
/-- The log of the retired can be made if it is not there. -/
theorem Stores.createRetired (hs : Stores d i F) (hnot : F.hasRetired = false)
    (hempty : F.retired = []) : ∃ j d', d.createNew retiredName = .ok (j, d') ∧
      Stores d' i { F with retiredTail := [], hasRetired := true } ∧
      d'.nodes.get? retiredName = some (.file j (lines F.retired)) ∧
      Disk.SameBut retiredName d d' := by
  have hnone := hs.retired_none hnot
  obtain ⟨j, d', hc⟩ : ∃ j d', d.createNew retiredName = .ok (j, d') := by
    simp [Disk.createNew, Disk.isThere, Table.contains, hnone, Disk.newFile, hs.hasBase]
  have hopen := hs.sound.opened_createNew hc
  have hfile : d'.nodes.get? retiredName = some (.file j (lines F.retired ++ [])) := by
    rw [hempty]
    exact hopen.content
  exact ⟨j, d', hc, hs.withRetired hopen.sound hopen.hasBase hopen.sameBut hfile,
    by rw [hfile, List.append_nil], hopen.sameBut⟩

omit [Noting note J] in
/-- What is appended to the log of the retired is in it. -/
theorem Stores.appendRetired (hs : Stores d i F) {k : Nat}
    (hf : d.nodes.get? retiredName = some (.file k (lines F.retired))) {bytes tail : List UInt8}
    {es : List Entry} (hb : lines F.retired ++ bytes = lines es ++ tail) :
    Stores (d.append k bytes) i
      { F with retired := es, retiredTail := tail, hasRetired := true } := by
  refine hs.withRetired (hs.sound.append k bytes) rfl (hs.sound.sameBut_append bytes hf)
    (k := k) ?_
  rw [Disk.get?_append_self bytes hf, hb]

/-- The log of the retired is opened, and made first if it is not there. -/
theorem safely_openRetired [Steady J] {Q : Log.File → η → Disk → Prop} {dir : String}
    (hs : Stores d i F) (hF : F.Coherent J h) (ht : F.retiredTail = [])
    (hQ : ∀ f d', Stores d' i { F with hasRetired := true } →
      d'.nodes.get? retiredName = some (.file f.id (lines F.retired)) →
      Disk.SameBut retiredName d d' → Q f h d') :
    Safely note J (Log.File.openOrCreate dir retiredName) Q E h d := by
  unfold Log.File.openOrCreate
  refine Job.Keeps.bind (safely_look hs hF rfl (fun _ => id) (fun there hthere => ?_) nofun)
  obtain rfl := Except.ok.inj hthere
  cases hret : F.hasRetired with
  | true =>
    obtain ⟨k, hk⟩ := hs.get?_retired hret
    rw [ht, List.append_nil] at hk
    have hs' : Stores d i { F with hasRetired := true } := hret ▸ hs
    rw [if_pos (by simp [Disk.isThere, Table.contains, hk])]
    unfold Log.File.openLog
    have hopen : d.openFile retiredName = .ok (k, (lines F.retired).length) := by
      simp [Disk.openFile, hk]
    refine Job.Keeps.bind (safely_look hs hF rfl (fun _ => id) (fun p hp => ?_) fun e he => ?_)
    · obtain rfl := Except.ok.inj (hopen.symm.trans hp)
      exact Job.keeps_pure (hQ _ d hs' hk fun _ _ => rfl)
    · cases hopen.symm.trans he
  | false =>
    have hnone := hs.retired_none hret
    have hF₁ := hF.rearrange (.openRetired ht)
    rw [if_neg (by simp [Disk.isThere, Table.contains, hnone])]
    obtain ⟨j, d₁, hc, hs₁, hfile, hsame⟩ := hs.createRetired hret (hF.retired_missing hret).1
    rw [← ht] at hs₁
    unfold Log.File.create
    refine Job.Keeps.bind (Job.Keeps.bind (safely_perform (congrArg (FileOp.opened d) hc) hF₁
      (fun _ ht => ht.elim) hs₁ (fun j' hj' => ?_) fun _ he => by cases he))
    obtain rfl := Except.ok.inj hj'
    refine Job.Keeps.bind (safely_syncFile hs₁ hF₁ (Job.keeps_pure ?_))
    refine Job.Keeps.bind (safely_syncNames hs₁ hF₁ (Job.keeps_pure ?_))
    exact hQ _ d₁ hs₁ hfile hsame

/-- Entries are appended to the log of the retired. -/
theorem safely_appendRetired [Steady J] {Q : Log.File → η → Disk → Prop} {f : Log.File}
    {es : List Entry} (hs : Stores d i F) (hF : F.Coherent J h)
    (hf : d.nodes.get? retiredName = some (.file f.id (lines F.retired)))
    (hes : ∀ e ∈ es, e.IsSound ∧ e.op ≠ .begin ∧ e.tx ∈ endedIn F.log)
    (hQ : ∀ f' d', Stores d' i
        { F with retired := F.retired ++ es, retiredTail := [], hasRetired := true } →
      Disk.SameBut retiredName d d' → Q f' h d') :
    Safely note J (f.appendAll es) Q E h d := by
  have hwhole : Stores (d.append f.id (lines es)) i
      { F with retired := F.retired ++ es, retiredTail := [], hasRetired := true } :=
    hs.appendRetired hf (by simp)
  have hF' := hF.rearrange (.retire hes Log.isTorn_nil)
  unfold Log.File.appendAll Log.File.appendBytes
  refine Job.Keeps.bind (Job.keeps_perform ?_ ?_ (fun _ _ => ?_) nofun)
  · rintro d' ⟨k, rfl⟩
    obtain ⟨done, rest, tail, rfl, htake, ht⟩ := Log.take_lines (fun e he => (hes e he).1.fits) k
    have hF₁ := hF.rearrange (.retire (fun e he => hes e (List.mem_append_left _ he)) ht)
    have hs₁ : Stores (d.append f.id ((lines (done ++ rest)).take k)) i
        { F with retired := F.retired ++ done, retiredTail := tail, hasRetired := true } :=
      hs.appendRetired hf (by rw [htake, Log.lines_append, List.append_assoc])
    show Consistent J (note h (logEntries (d.append f.id ((lines (done ++ rest)).take k))))
      (d.append f.id ((lines (done ++ rest)).take k))
    rw [hs₁.look note hF₁]
    exact ⟨i, _, hs₁, hF₁⟩
  · show Consistent J (note h (logEntries (d.append f.id (lines es)))) (d.append f.id (lines es))
    rw [hwhole.look note hF']
    exact ⟨i, _, hwhole, hF'⟩
  · show Safely note J _ Q E (note h (logEntries (d.append f.id (lines es))))
      (d.append f.id (lines es))
    rw [hwhole.look note hF']
    exact Job.Keeps.bind (safely_syncFile hwhole hF' (Job.keeps_pure
      (hQ _ _ hwhole (hs.sound.sameBut_append _ hf))))

omit [Noting note J] in
theorem Files.Repair.cutRetired (hthere : F.hasRetired = true) :
    F.Repair { F with retiredTail := [] } := by
  have hr : F.Repair
      { F with retired := F.retired ++ [], retiredTail := [], hasRetired := true } :=
    .retire nofun Log.isTorn_nil
  rw [List.append_nil, ← hthere] at hr
  exact hr

/-- The torn line behind the log of the retired is cut off. -/
theorem safely_cutRetired [Lasting J] {Q : Unit → η → Disk → Prop} {dir : String}
    {o : Option Nat} (ho : o = if F.retiredTail = [] then none else some (lines F.retired).length)
    (hs : Stores d i F) (hF : F.Coherent J h)
    (hQ : ∀ d', Stores d' i { F with retiredTail := [] } → F.Repairs { F with retiredTail := [] } →
      Q () h d') :
    Safely note J (Recovery.cutTail dir retiredName o) Q E h d := by
  subst ho
  split
  · next ht => exact Job.keeps_pure (hQ d (ht ▸ hs) (ht ▸ .refl))
  · next ht =>
    unfold Recovery.cutTail Log.truncate
    have hthere : F.hasRetired = true := by
      by_contra hnot
      exact ht (hF.retired_missing (by simpa using hnot)).2
    obtain ⟨k, hk⟩ := hs.get?_retired hthere
    obtain ⟨d₁, hc⟩ : ∃ d₁, d.setLength retiredName (lines F.retired).length = .ok d₁ :=
      Disk.setLength_ok hk (by simp)
    have hr := hs.sound.resized hc
    have hF' := Files.Repair.cutRetired hthere
    have hs₁ : Stores d₁ i { F with retiredTail := [] } := by
      have hfile : d₁.nodes.get? retiredName = some (.file k (lines F.retired ++ [])) := by
        simpa [Disk.resize] using hr.content hk
      have := hs.withRetired hr.sound hr.hasBase hr.sameBut hfile
      rwa [← hthere] at this
    exact safely_perform (congrArg (FileOp.changed d) hc) (hF.repair hF') nofun hs₁
      (fun _ _ => hQ d₁ hs₁ (.single hF')) nofun

end

end LedgerGate.Ledger

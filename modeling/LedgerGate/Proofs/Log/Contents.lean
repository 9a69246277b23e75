import LedgerGate.Log.File
import LedgerGate.Proofs.Disk
import LedgerGate.Proofs.Execution
import LedgerGate.Proofs.Log.Lines

/-!
# A log file as the list of its entries

A log that was created holds the lines of some entries after every call that writes to it, and the
calls do to these entries what they say (`Log.File.Holds`, `Log.holds_attemptAll`). No call fails
but one, where a directory is in the way of the file that is to take the place of the log. Reading
gives the entries back, and when the file is cut somewhere, those whose whole lines are left
(`Log.replay_of_calls`).
-/

namespace LedgerGate.Log

/-! ## The name of a replacement -/

theorem File.withoutExtension_replacementName (name : String) :
    withoutExtension (replacementName name) = withoutExtension name ++ ".log.compact" := by
  have hrev : (replacementName name).toList.reverse.dropWhile (fun c => c ≠ '.' && c ≠ '/') =
      '.' :: ("tcapmoc.gol.".toList ++ (withoutExtension name).toList.reverse) := by
    simp [replacementName]
  rw [withoutExtension, hrev]
  simp [startsPart]

/-- A log is not replaced by itself: its replacement has a longer name without extension. -/
theorem File.replacementName_ne (name : String) : replacementName name ≠ name := by
  intro h
  have hstem := withoutExtension_replacementName name
  rw [h] at hstem
  have hlength := congrArg (fun s => s.toList.length) hstem
  simp at hlength

/-! ## Runs of single steps -/

theorem File.run_create {dir name : String} {d e : Disk} {i : Nat}
    (hc : d.createNew name = .ok (i, e)) :
    (create dir name).run.run d = (.ok ⟨dir, name, i, 0⟩, e) := by
  unfold create
  refine (Job.run_bind_ok (Job.run_perform_ok (.createNew name)
    (congrArg (FileOp.opened d) hc))).trans ?_
  exact (Job.run_bind_ok (Job.run_perform_ok (.syncFile i) (a := ()) rfl)).trans rfl

theorem File.run_writeWhole {dir name : String} {bytes : List UInt8} {d e : Disk} {i : Nat}
    (hc : d.create name = .ok (i, e)) :
    (writeWhole dir name bytes).run.run d = (.ok (), e.append i bytes) := by
  unfold writeWhole
  refine (Job.run_bind_ok (Job.run_perform_ok (.create name)
    (congrArg (FileOp.opened d) hc))).trans ?_
  refine (Job.run_bind_ok (Job.run_perform_ok (.append i bytes) (a := ()) rfl)).trans ?_
  exact Job.run_perform_ok (.syncFile i) rfl

theorem run_replayFile {dir name : String} {bytes : List UInt8} {d : Disk}
    {r : Except Corruption Replay} (h : d.read name = .ok bytes) (hr : replay bytes = r) :
    (replayFile dir name).run.run d = (r.mapError fun c => c.fault (pathOf dir name), d) := by
  unfold replayFile
  refine (Job.run_bind_ok (Job.run_perform_ok (.read name)
    (congrArg (fun r => (r, d)) h))).trans ?_
  rw [hr]
  cases r <;> rfl

/-! ## Calls -/

/-- A call that writes to a log. -/
inductive Call where
  | append (e : Entry)
  | appendAll (es : List Entry)
  | replaceAll (es : List Entry)
deriving DecidableEq, Repr

namespace Call

/-- The entries that a call writes. -/
def entries : Call → List Entry
  | append e => [e]
  | appendAll es => es
  | replaceAll es => es

/-- What a call does to a log. -/
def run (f : File) : Call → Job File
  | append e => f.append e
  | appendAll es => f.appendAll es
  | replaceAll es => f.replaceAll es

/-- What a call makes of the entries of a log. -/
def after (es : List Entry) : Call → List Entry
  | append e => es ++ [e]
  | appendAll fs => es ++ fs
  | replaceAll fs => fs

end Call

/-- Calls one after another, with the entries that they make of those of the log. A call that fails
leaves the log open as it was. -/
def attemptAll (f : File) (es : List Entry) : List Call → Program (File × List Entry)
  | [] => return (f, es)
  | c :: r => do
    let result ← (c.run f).run
    match result with
    | .ok g => attemptAll g (c.after es) r
    | .error _ => attemptAll f es r

/-! ## What a log holds -/

variable {dir name : String} {f g : File} {es fs : List Entry} {d d' : Disk} {c : Call}

/-- Whether a disk holds the lines of entries in the file of a log, and the log knows their
length. -/
structure File.Holds (f : File) (es : List Entry) (d : Disk) : Prop where
  sound : d.Sound
  hasBase : d.hasBase = true
  node : d.nodes.get? f.name = some (.file f.id (lines es))
  length : f.length = (lines es).length
  fits : ∀ e ∈ es, e.Fits

/-- Whether a directory is in the way of the file that is to take the place of a log. -/
def File.Blocked (name : String) (d : Disk) : Prop :=
  d.nodes.get? (replacementName name) = some .directory

theorem File.holds_create (hd : d.Sound) (h : (create dir name).run.run d = (.ok f, d')) :
    f.dir = dir ∧ f.name = name ∧ f.Holds [] d' ∧ (Blocked name d' ↔ Blocked name d) := by
  cases hc : d.createNew name with
  | error e =>
    unfold create at h
    rw [Job.run_bind_error (Job.run_perform_error (.createNew name)
      (congrArg (FileOp.opened d) hc))] at h
    exact absurd (Prod.mk.inj h).1 nofun
  | ok p =>
    obtain ⟨i, d₁⟩ := p
    have hopened := hd.opened_createNew hc
    obtain ⟨hf, rfl⟩ := Prod.mk.inj ((run_create hc).symm.trans h)
    obtain rfl := Except.ok.inj hf
    have hbase : d.hasBase = true := by
      unfold Disk.createNew at hc
      split at hc
      · exact absurd hc nofun
      · exact (Disk.newFile_eq_ok hc).1
    refine ⟨rfl, rfl, ⟨hopened.sound, hopened.hasBase.trans hbase, hopened.content, rfl, nofun⟩, ?_⟩
    rw [Blocked, Blocked, hopened.sameBut _ (replacementName_ne name)]

/-- Lines are put behind those that are there. -/
theorem File.Holds.run_appendBytes (h : f.Holds es d) (hfit : ∀ e ∈ fs, e.Fits) : ∃ g,
    (f.appendBytes (lines fs)).run.run d = (.ok g, d.append f.id (lines fs)) ∧
      g.dir = f.dir ∧ g.name = f.name ∧ g.Holds (es ++ fs) (d.append f.id (lines fs)) := by
  refine ⟨{ f with length := f.length + (lines fs).length }, ?_, rfl, rfl, ?_⟩
  · unfold appendBytes
    refine (Job.run_bind_ok (Job.run_perform_ok (.append f.id (lines fs)) (a := ()) rfl)).trans ?_
    exact (Job.run_bind_ok (Job.run_perform_ok (.syncFile f.id) (a := ()) rfl)).trans rfl
  · refine ⟨h.sound.append _ _, h.hasBase, ?_, ?_, ?_⟩
    · rw [lines_append]
      exact Disk.get?_append_self (lines fs) h.node
    · rw [lines_append, List.length_append, ← h.length]
    · exact fun e he => (List.mem_append.mp he).elim (h.fits e) (hfit e)

/-- A log is replaced as a whole, or nothing is changed because a directory is in the way. -/
theorem File.Holds.run_replaceAll (h : f.Holds es d) (hfit : ∀ e ∈ fs, e.Fits) :
    (∃ g d', (f.replaceAll fs).run.run d = (.ok g, d') ∧ g.dir = f.dir ∧ g.name = f.name ∧
      g.Holds fs d' ∧ (Blocked f.name d' ↔ Blocked f.name d)) ∨
    Blocked f.name d ∧ ∃ fault, (f.replaceAll fs).run.run d = (.error fault, d) := by
  have hne := replacementName_ne f.name
  cases hc : d.create (replacementName f.name) with
  | error e =>
    refine .inr ⟨(Disk.create_error_iff h.hasBase).mp ⟨e, hc⟩,
      .io (pathOf f.dir (replacementName f.name)) e.message, ?_⟩
    unfold replaceAll writeWhole
    exact Job.run_bind_error (Job.run_bind_error
      (Job.run_perform_error (.create _) (congrArg (FileOp.opened d) hc)))
  | ok p =>
    obtain ⟨i, d₁⟩ := p
    have hopened := h.sound.opened_create hc
    have hfree : ¬ Blocked f.name d := fun hdir => by
      obtain ⟨e, he⟩ := (Disk.create_error_iff h.hasBase).mpr hdir
      exact absurd (hc.symm.trans he) nofun
    have htemp : (d₁.append i (lines fs)).nodes.get? (replacementName f.name) =
        some (.file i (lines fs)) := Disk.get?_append_self (lines fs) hopened.content
    have hsame := hopened.sound.sameBut_append (lines fs) hopened.content
    have hlog : (d₁.append i (lines fs)).nodes.get? f.name = some (.file f.id (lines es)) :=
      ((hsame _ hne.symm).trans (hopened.sameBut _ hne.symm)).trans h.node
    obtain ⟨d₂, hren⟩ := Disk.rename_ok htemp hlog
    have hr := (hopened.sound.append i (lines fs)).renamed hne hren
    have hbase : d₂.hasBase = true := (hr.hasBase.trans hopened.hasBase).trans h.hasBase
    have hnode : d₂.nodes.get? f.name = some (.file i (lines fs)) := hr.arrived.trans htemp
    have hopen : d₂.openFile f.name = .ok (i, (lines fs).length) := by
      simp [Disk.openFile, hnode]
    have hcheck : d₂.checkBase = .ok () := if_pos hbase
    refine .inl ⟨⟨f.dir, f.name, i, (lines fs).length⟩, d₂, ?_, rfl, rfl,
      ⟨hr.sound, hbase, hnode, rfl, hfit⟩, iff_of_false ?_ hfree⟩
    · unfold replaceAll
      refine (Job.run_bind_ok (run_writeWhole hc)).trans ?_
      refine (Job.run_bind_ok (Job.run_perform_ok (.rename _ f.name) (a := ())
        (congrArg (FileOp.changed _) hren))).trans ?_
      refine (Job.run_bind_ok (Job.run_perform_ok .syncNames (a := ())
        (congrArg (·, d₂) hcheck))).trans ?_
      unfold openLog
      exact (Job.run_bind_ok (Job.run_perform_ok (.openFile f.name)
        (congrArg (·, d₂) hopen))).trans rfl
    · rw [Blocked, hr.gone]
      exact nofun

/-- A call does to the entries of a log what it says, or leaves the disk as it is because a
directory is in its way. -/
theorem File.Holds.run_call (h : f.Holds es d) (hfit : ∀ e ∈ c.entries, e.Fits) :
    (∃ g d', (c.run f).run.run d = (.ok g, d') ∧ g.dir = f.dir ∧ g.name = f.name ∧
      g.Holds (c.after es) d' ∧ (Blocked f.name d' ↔ Blocked f.name d)) ∨
    Blocked f.name d ∧ ∃ fault, (c.run f).run.run d = (.error fault, d) := by
  have happend : ∀ {gs : List Entry}, (∀ e ∈ gs, e.Fits) → ∃ g d',
      (f.appendBytes (lines gs)).run.run d = (.ok g, d') ∧ g.dir = f.dir ∧ g.name = f.name ∧
        g.Holds (es ++ gs) d' ∧ (Blocked f.name d' ↔ Blocked f.name d) := fun hgs => by
    obtain ⟨g, hrun, hdir, hname, hholds⟩ := h.run_appendBytes hgs
    exact ⟨g, _, hrun, hdir, hname, hholds, Disk.sameDirectories_append d f.id _ _⟩
  cases c with
  | append e =>
    have hfit : ∀ e' ∈ [e], e'.Fits := hfit
    obtain ⟨g, d', hrun, hg⟩ := happend hfit
    rw [lines_cons, lines_nil, List.append_nil] at hrun
    exact .inl ⟨g, d', hrun, hg⟩
  | appendAll gs => exact .inl (happend hfit)
  | replaceAll gs => exact h.run_replaceAll hfit

/-- After any calls a log holds the entries that they have made of those before. All calls succeed
where no directory is in their way. -/
theorem holds_attemptAll (h : f.Holds es d) {calls : List Call}
    (hfit : ∀ c ∈ calls, ∀ e ∈ c.entries, e.Fits)
    (hrun : (attemptAll f es calls).run d = ((g, fs), d')) :
    g.dir = f.dir ∧ g.name = f.name ∧ g.Holds fs d' ∧
      (¬ File.Blocked f.name d → fs = calls.foldl Call.after es) := by
  induction calls generalizing f es d with
  | nil =>
    obtain ⟨hp, rfl⟩ := Prod.mk.inj hrun
    obtain ⟨rfl, rfl⟩ := Prod.mk.inj hp
    exact ⟨rfl, rfl, h, fun _ => rfl⟩
  | cons c r ih =>
    have hrest : ∀ c ∈ r, ∀ e ∈ c.entries, e.Fits := fun c hc => hfit c (List.mem_cons_of_mem _ hc)
    rw [attemptAll, Program.run_bind] at hrun
    rcases h.run_call (hfit c List.mem_cons_self) with
      ⟨f', d₁, hcall, hdir, hname, hholds, hblocked⟩ | ⟨hblocked, fault, hcall⟩
    · rw [hcall] at hrun
      obtain ⟨hdir', hname', hholds', hall⟩ := ih hholds hrest hrun
      refine ⟨hdir'.trans hdir, hname'.trans hname, hholds', fun hfree => ?_⟩
      rw [← hname] at hblocked hfree
      exact hall (mt hblocked.mp (hname ▸ hfree))
    · rw [hcall] at hrun
      obtain ⟨hdir', hname', hholds', -⟩ := ih h hrest hrun
      exact ⟨hdir', hname', hholds', fun hfree => absurd hblocked hfree⟩

/-! ## Reading a log, whole or cut -/

/-- The beginning of a log is read as the entries whose whole lines are in it, and the line that is
cut is torn where it begins. -/
theorem run_replayFile_take (h : ∀ e ∈ es, e.Fits) (n : Nat)
    (hfile : d.content? name = some ((lines es).take n)) :
    (replayFile dir name).run.run d =
      (.ok ⟨wholeWithin n (recordsFrom 0 es),
        (cutAt? n (recordsFrom 0 es)).map Record.offset⟩, d) := by
  obtain ⟨done, rest, tail, rfl, htake, ht, hwhole, hcut⟩ := exists_take_lines h n 0
  rw [Nat.zero_add] at hwhole hcut
  have hreplay := replay_lines (fun e he => h e (List.mem_append_left rest he)) ht
  rw [← htake] at hreplay
  rw [run_replayFile (Disk.read_of_content? hfile) hreplay, hwhole, hcut, Nat.zero_add]
  rfl

/-- A cut log is cut off where the line that was cut begins. -/
theorem run_truncate_take (h : ∀ e ∈ es, e.Fits) {n : Nat} {r : Record}
    (hr : cutAt? n (recordsFrom 0 es) = some r)
    (hfile : d.content? name = some ((lines es).take n)) : ∃ d',
      (truncate dir name r.offset).run.run d = (.ok (), d') ∧
        d'.content? name = some (lines ((wholeWithin n (recordsFrom 0 es)).map Record.entry)) := by
  obtain ⟨done, rest, tail, rfl, htake, ht, hwhole, hcut⟩ := exists_take_lines h n 0
  rw [Nat.zero_add] at hwhole hcut
  rw [hr, Option.map_some, Nat.zero_add] at hcut
  have hoffset : r.offset = (lines done).length := by
    split at hcut
    · exact absurd hcut nofun
    · exact Option.some.inj hcut
  rw [hwhole, map_entry_recordsFrom, hoffset]
  rw [htake] at hfile
  have hread := Disk.read_of_content? hfile
  unfold Disk.read at hread
  split at hread
  · exact absurd hread nofun
  · exact absurd hread nofun
  · next i c hnode =>
    obtain rfl := Except.ok.inj hread
    have hset : d.setLength name (lines done).length = .ok { d with
        nodes := d.nodes.insert name (.file i (lines done)) } := by
      unfold Disk.setLength
      rw [hnode]
      simp [Disk.resize, Nat.not_lt.mpr (Nat.le_add_right _ _)]
    refine ⟨_, Job.run_perform_ok (.setLength _ _) (congrArg (FileOp.changed d) hset), ?_⟩
    simp [Disk.content?, Disk.read, Except.toOption]

/-- After any calls on a log that was created, it holds the entries that the calls stand for, and
reading gives these back. Of the file's first bytes, the entries are read whose whole lines are
among them. A line that is cut is reported, and cutting the file off there leaves these entries. -/
theorem replay_of_calls {d₁ : Disk} {calls : List Call} (hd : d.Sound)
    (hcreate : (File.create dir name).run.run d = (.ok f, d₁))
    (hfit : ∀ c ∈ calls, ∀ e ∈ c.entries, e.Fits)
    (hrun : (attemptAll f [] calls).run d₁ = ((g, es), d')) :
    (¬ File.Blocked name d → es = calls.foldl Call.after []) ∧
      d'.content? name = some (lines es) ∧ g.length = (lines es).length ∧
      (replayFile dir name).run.run d' = (.ok ⟨recordsFrom 0 es, none⟩, d') ∧
      (recordsFrom 0 es).map Record.entry = es ∧
      ∀ n e, e.content? name = some ((lines es).take n) →
        (replayFile dir name).run.run e = (.ok ⟨wholeWithin n (recordsFrom 0 es),
          (cutAt? n (recordsFrom 0 es)).map Record.offset⟩, e) ∧
        ∀ r, cutAt? n (recordsFrom 0 es) = some r → ∃ e',
          (truncate dir name r.offset).run.run e = (.ok (), e') ∧
          e'.content? name =
            some (lines ((wholeWithin n (recordsFrom 0 es)).map Record.entry)) := by
  obtain ⟨hdir, rfl, hstart, hblocked⟩ := File.holds_create hd hcreate
  obtain ⟨-, hname, hholds, hall⟩ := holds_attemptAll hstart hfit hrun
  have hfile : d'.content? f.name = some (lines es) := by
    rw [← hname]
    simp [Disk.content?, Disk.read, hholds.node, Except.toOption]
  refine ⟨fun hfree => hall (mt hblocked.mp hfree), hfile, hholds.length, ?_,
    map_entry_recordsFrom es 0, fun n e hcut => ?_⟩
  · have hreplay := replay_lines hholds.fits isTorn_nil
    rw [List.append_nil, if_pos rfl] at hreplay
    exact run_replayFile (Disk.read_of_content? hfile) hreplay
  · exact ⟨run_replayFile_take hholds.fits n hcut, fun r hr =>
      run_truncate_take hholds.fits hr hcut⟩

/-- A step of a transaction whose identifier has a tabulator, quotes and a line feed in it. -/
def quotedEntry (op : Op) : Entry := ⟨op, "a\t\"b\"\nç", "", 0⟩

/-- Calls that leave the beginning and the end of a transaction in a log. -/
def quotedCalls : List Call :=
  [.append (quotedEntry .begin), .appendAll [quotedEntry .commit, quotedEntry .begin],
    .replaceAll [quotedEntry .begin], .append (quotedEntry .commit)]

theorem replay_of_calls_quoted : ∃ f d₁ g d',
    (File.create "data" "wal.log").run.run .empty = (.ok f, d₁) ∧
      (∀ c ∈ quotedCalls, ∀ e ∈ c.entries, e.Fits) ∧
      (attemptAll f [] quotedCalls).run d₁ =
        ((g, [quotedEntry .begin, quotedEntry .commit]), d') ∧
      (replayFile "data" "wal.log").run.run d' =
        (.ok ⟨recordsFrom 0 [quotedEntry .begin, quotedEntry .commit], none⟩, d') := by
  have hcreate : (File.create "data" "wal.log").run.run .empty = _ := File.run_create rfl
  have hfit : ∀ c ∈ quotedCalls, ∀ e ∈ c.entries, e.Fits := by
    have hquoted : ∀ op, (quotedEntry op).Fits := fun op => by
      cases op <;> exact Entry.IsSound.fits ⟨by decide, by decide, by decide⟩
    simp [quotedCalls, Call.entries, hquoted]
  rcases hrun : (attemptAll _ [] quotedCalls).run _ with ⟨⟨g, es⟩, d'⟩
  obtain ⟨hall, -, -, hreplay, -⟩ := replay_of_calls Disk.sound_empty hcreate hfit hrun
  obtain rfl : es = [quotedEntry .begin, quotedEntry .commit] := hall nofun
  exact ⟨_, _, g, d', hcreate, hfit, hrun, hreplay⟩

end LedgerGate.Log

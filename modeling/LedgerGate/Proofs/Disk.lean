import LedgerGate.Proofs.Table
import LedgerGate.Program

/-!
# What file operations change

On a sound disk a file has one name, and then an operation changes what is under the names
that it is given and nothing else. Every operation keeps a disk sound (`Disk.Sound.apply`).
-/

namespace LedgerGate.Disk

/-- Whether no two names stand for one file, and no file has an identity yet to be given. -/
structure Sound (d : Disk) : Prop where
  apart : ∀ {n m : String} {i : Nat} {c c' : List UInt8},
    d.nodes.get? n = some (.file i c) → d.nodes.get? m = some (.file i c') → n = m
  fresh : ∀ {n : String} {i : Nat} {c : List UInt8},
    d.nodes.get? n = some (.file i c) → i < d.nextId

theorem sound_empty : empty.Sound := ⟨nofun, nofun⟩

/-- Whether two disks have the same under every name but one. -/
def SameBut (name : String) (d d' : Disk) : Prop :=
  ∀ m, m ≠ name → d'.nodes.get? m = d.nodes.get? m

theorem get?_append (d : Disk) (i : Nat) (bytes : List UInt8) (n : String) :
    (d.append i bytes).nodes.get? n = (d.nodes.get? n).map (appendNode i bytes) :=
  Table.get?_map _ _ _

theorem get?_append_self {d : Disk} {i : Nat} {n : String} {c : List UInt8} (bytes : List UInt8)
    (h : d.nodes.get? n = some (.file i c)) :
    (d.append i bytes).nodes.get? n = some (.file i (c ++ bytes)) := by
  simp [get?_append, h, appendNode]

/-- A file stays a file when bytes are added to any file. -/
theorem exists_file_append {d : Disk} (i : Nat) (bytes : List UInt8) {n : String}
    (h : ∃ j c, d.nodes.get? n = some (.file j c)) :
    ∃ j c, (d.append i bytes).nodes.get? n = some (.file j c) := by
  obtain ⟨j, c, hn⟩ := h
  by_cases hj : j = i
  · exact ⟨j, c ++ bytes, by simp [get?_append, hn, appendNode, hj]⟩
  · exact ⟨j, c, by simp [get?_append, hn, appendNode, hj]⟩

theorem Sound.sameBut_append {d : Disk} (hd : d.Sound) {i : Nat} {n : String} {c : List UInt8}
    (bytes : List UInt8) (h : d.nodes.get? n = some (.file i c)) :
    SameBut n d (d.append i bytes) := by
  intro m hm
  rw [get?_append]
  cases hn : d.nodes.get? m with
  | none => rfl
  | some node =>
    cases node with
    | directory => rfl
    | file j c' =>
      have hj : j ≠ i := by
        rintro rfl
        exact hm (hd.apart hn h)
      simp [appendNode, hj]

theorem Sound.append {d : Disk} (hd : d.Sound) (i : Nat) (bytes : List UInt8) :
    (d.append i bytes).Sound := by
  have hfile : ∀ {n j c}, (d.append i bytes).nodes.get? n = some (.file j c) →
      ∃ c', d.nodes.get? n = some (.file j c') := by
    intro n j c h
    rw [get?_append, Option.map_eq_some_iff] at h
    obtain ⟨node, hn, hnode⟩ := h
    cases node with
    | directory => exact absurd hnode nofun
    | file k c' =>
      refine ⟨c', hn.trans ?_⟩
      by_cases hk : k = i <;> simp [appendNode, hk] at hnode ⊢ <;> omega
  refine ⟨fun h h' => ?_, fun h => ?_⟩
  · obtain ⟨c, hc⟩ := hfile h
    obtain ⟨c', hc'⟩ := hfile h'
    exact hd.apart hc hc'
  · obtain ⟨c, hc⟩ := hfile h
    exact hd.fresh hc

/-- A disk stays sound when a file is put under a name that no other name stands for. -/
theorem Sound.insert {d : Disk} (hd : d.Sound) {name : String} {i : Nat} {c : List UInt8}
    {next : Nat} (hi : ∀ m c', d.nodes.get? m = some (.file i c') → m = name) (hlt : i < next)
    (hle : d.nextId ≤ next) :
    Sound { d with nodes := d.nodes.insert name (.file i c), nextId := next } := by
  have hfile : ∀ {n j c'}, (d.nodes.insert name (.file i c)).get? n = some (.file j c') →
      (name = n ∧ i = j) ∨ (name ≠ n ∧ d.nodes.get? n = some (.file j c')) := by
    intro n j c' h
    rw [Table.get?_insert] at h
    split at h
    · next hn => exact .inl ⟨hn, (Node.file.inj (Option.some.inj h)).1⟩
    · next hn => exact .inr ⟨hn, h⟩
  refine ⟨fun h h' => ?_, fun h => ?_⟩
  · rcases hfile h with ⟨rfl, rfl⟩ | ⟨hn, h⟩ <;> rcases hfile h' with ⟨rfl, hij⟩ | ⟨hm, h'⟩
    · rfl
    · exact (hi _ _ h').symm
    · subst hij
      exact hi _ _ h
    · exact hd.apart h h'
  · rcases hfile h with ⟨-, rfl⟩ | ⟨-, h⟩
    · exact hlt
    · exact Nat.lt_of_lt_of_le (hd.fresh h) hle

theorem Sound.erase {d : Disk} (hd : d.Sound) (name : String) :
    Sound { d with nodes := d.nodes.erase name } := by
  have hfile : ∀ {n j c}, (d.nodes.erase name).get? n = some (.file j c) →
      d.nodes.get? n = some (.file j c) := by
    intro n j c h
    rw [Table.get?_erase] at h
    split at h
    · exact absurd h nofun
    · exact h
  exact ⟨fun h h' => hd.apart (hfile h) (hfile h'), fun h => hd.fresh (hfile h)⟩

/-! ## One operation at a time -/

section

variable {d d' : Disk} {name source target : String} {i : Nat} {c : List UInt8}

theorem newFile_eq_ok (h : d.newFile name = .ok (i, d')) :
    d.hasBase = true ∧ i = d.nextId ∧ d' = { d with
      nodes := d.nodes.insert name (.file d.nextId []), nextId := d.nextId + 1 } := by
  unfold newFile at h
  split at h
  · next hb =>
    obtain ⟨rfl, rfl⟩ := Prod.mk.inj (Except.ok.inj h)
    exact ⟨hb, rfl, rfl⟩
  · exact absurd h nofun

theorem Sound.newFile (hd : d.Sound) (h : d.newFile name = .ok (i, d')) : d'.Sound := by
  obtain ⟨-, -, rfl⟩ := newFile_eq_ok h
  exact hd.insert (fun m c' hm => absurd (hd.fresh hm) (Nat.lt_irrefl _)) (Nat.lt_succ_self _)
    (Nat.le_succ _)

/-- What a new or emptied file changes. -/
structure Opened (d : Disk) (name : String) (i : Nat) (d' : Disk) : Prop where
  sound : d'.Sound
  hasBase : d'.hasBase = d.hasBase
  content : d'.nodes.get? name = some (.file i [])
  sameBut : SameBut name d d'

theorem Sound.opened_newFile (hd : d.Sound) (h : d.newFile name = .ok (i, d')) :
    Opened d name i d' := by
  have hs := hd.newFile h
  obtain ⟨-, rfl, rfl⟩ := newFile_eq_ok h
  exact ⟨hs, rfl, by simp, fun m hm => by simp [Ne.symm hm]⟩

theorem Sound.opened_createNew (hd : d.Sound) (h : d.createNew name = .ok (i, d')) :
    Opened d name i d' := by
  unfold createNew at h
  split at h
  · exact absurd h nofun
  · exact hd.opened_newFile h

theorem Sound.opened_create (hd : d.Sound) (h : d.create name = .ok (i, d')) :
    Opened d name i d' := by
  unfold create at h
  split at h
  · exact hd.opened_newFile h
  · exact absurd h nofun
  · next j c hj =>
    obtain ⟨rfl, rfl⟩ := Prod.mk.inj (Except.ok.inj h)
    exact ⟨hd.insert (fun m c' hm => hd.apart hm hj) (hd.fresh hj) (Nat.le_refl _), rfl,
      by simp, fun m hm => by simp [Ne.symm hm]⟩

/-- What a file with new content changes. -/
structure Replaced (d : Disk) (name : String) (bytes : List UInt8) (d' : Disk) : Prop where
  sound : d'.Sound
  hasBase : d'.hasBase = d.hasBase
  content : ∃ j, d'.nodes.get? name = some (.file j bytes)
  sameBut : SameBut name d d'

theorem Sound.write {bytes : List UInt8} (hd : d.Sound) (h : d.write name bytes = .ok d') :
    Replaced d name bytes d' := by
  unfold Disk.write at h
  split at h
  · exact absurd h nofun
  · next j d₁ hcreate =>
    obtain rfl := Except.ok.inj h
    have hopened := hd.opened_create hcreate
    have hsame := hopened.sound.sameBut_append bytes hopened.content
    exact {
      sound := hopened.sound.append j bytes
      hasBase := hopened.hasBase
      content := ⟨j, Disk.get?_append_self bytes hopened.content⟩
      sameBut := fun n hn => (hsame n hn).trans (hopened.sameBut n hn) }

theorem rename_eq_ok (h : d.rename source target = .ok d') : ∃ n,
    d.nodes.get? source = some n ∧
      d' = { d with nodes := (d.nodes.erase source).insert target n } := by
  unfold rename at h
  split at h
  · exact absurd h nofun
  · exact absurd h nofun
  · exact absurd h nofun
  · next hs _ _ => exact ⟨_, hs, (Except.ok.inj h).symm⟩

theorem Sound.rename (hd : d.Sound) (h : d.rename source target = .ok d') : d'.Sound := by
  obtain ⟨n, hn, rfl⟩ := rename_eq_ok h
  cases n with
  | directory =>
    have hfile : ∀ {n j c}, ((d.nodes.erase source).insert target .directory).get? n =
        some (.file j c) → d.nodes.get? n = some (.file j c) := by
      intro n j c h
      rw [Table.get?_insert, Table.get?_erase] at h
      split at h
      · exact absurd h nofun
      · split at h
        · exact absurd h nofun
        · exact h
    exact ⟨fun h h' => hd.apart (hfile h) (hfile h'), fun h => hd.fresh (hfile h)⟩
  | file i c =>
    refine (hd.erase source).insert (fun m c' hm => ?_) (hd.fresh hn) (Nat.le_refl _)
    rw [Table.get?_erase] at hm
    split at hm
    · exact absurd hm nofun
    · next hne => exact absurd (hd.apart hn hm) hne

/-- What the renaming of a file changes. -/
structure Renamed (d : Disk) (source target : String) (d' : Disk) : Prop where
  sound : d'.Sound
  hasBase : d'.hasBase = d.hasBase
  arrived : d'.nodes.get? target = d.nodes.get? source
  gone : d'.nodes.get? source = none
  others : ∀ m, m ≠ source → m ≠ target → d'.nodes.get? m = d.nodes.get? m

theorem Sound.renamed (hd : d.Sound) (hne : source ≠ target)
    (h : d.rename source target = .ok d') : Renamed d source target d' := by
  have hs := hd.rename h
  obtain ⟨n, hn, rfl⟩ := rename_eq_ok h
  refine ⟨hs, rfl, ?_, ?_, fun m hm hm' => ?_⟩
  · simp [hn]
  · simp [Ne.symm hne]
  · simp [Ne.symm hm, Ne.symm hm']

/-- A file can be given the name of another file. -/
theorem rename_ok {j : Nat} {c' : List UInt8} (hs : d.nodes.get? source = some (.file i c))
    (ht : d.nodes.get? target = some (.file j c')) : ∃ d', d.rename source target = .ok d' := by
  simp [rename, hs, ht]

/-- What the removal of a file changes. -/
structure Removed (d : Disk) (name : String) (d' : Disk) : Prop where
  sound : d'.Sound
  hasBase : d'.hasBase = d.hasBase
  content : d'.nodes.get? name = none
  sameBut : SameBut name d d'

theorem Sound.removed (hd : d.Sound) (h : d.remove name = .ok d') : Removed d name d' := by
  unfold remove at h
  split at h
  · exact absurd h nofun
  · exact absurd h nofun
  · obtain rfl := Except.ok.inj h
    exact ⟨hd.erase name, rfl, by simp, fun m hm => by simp [Ne.symm hm]⟩

/-- What cutting a file changes. -/
structure Resized (d : Disk) (name : String) (length : Nat) (d' : Disk) : Prop where
  sound : d'.Sound
  hasBase : d'.hasBase = d.hasBase
  content : ∀ {i c}, d.nodes.get? name = some (.file i c) →
    d'.nodes.get? name = some (.file i (resize length c))
  sameBut : SameBut name d d'

theorem Sound.resized {length : Nat} (hd : d.Sound) (h : d.setLength name length = .ok d') :
    Resized d name length d' := by
  unfold setLength at h
  split at h
  · exact absurd h nofun
  · exact absurd h nofun
  · next j c hj =>
    split at h
    · exact absurd h nofun
    · obtain rfl := Except.ok.inj h
      refine ⟨hd.insert (fun m c' hm => hd.apart hm hj) (hd.fresh hj) (Nat.le_refl _), rfl,
        fun {i c'} hc => ?_, fun m hm => by simp [Ne.symm hm]⟩
      obtain ⟨rfl, rfl⟩ := Node.file.inj (Option.some.inj (hj.symm.trans hc))
      simp

/-! ## Directories -/

/-- Whether the same names are taken by directories on two disks. -/
def SameDirectories (d d' : Disk) : Prop :=
  ∀ n, d'.nodes.get? n = some .directory ↔ d.nodes.get? n = some .directory

theorem SameDirectories.trans {d₁ d₂ d₃ : Disk} (h : SameDirectories d₁ d₂)
    (h' : SameDirectories d₂ d₃) : SameDirectories d₁ d₃ := fun n => (h' n).trans (h n)

theorem SameBut.sameDirectories (h : SameBut name d d') (hd : d.nodes.get? name ≠ some .directory)
    (hd' : d'.nodes.get? name ≠ some .directory) : SameDirectories d d' := by
  intro n
  by_cases hn : n = name
  · subst hn
    exact iff_of_false hd' hd
  · rw [h n hn]

theorem sameDirectories_append (d : Disk) (i : Nat) (bytes : List UInt8) :
    SameDirectories d (d.append i bytes) := by
  intro n
  rw [get?_append]
  cases d.nodes.get? n with
  | none => simp
  | some node =>
    cases node with
    | directory => simp [appendNode]
    | file j c => by_cases hj : j = i <;> simp [appendNode, hj]

theorem Opened.sameDirectories (h : Opened d name i d')
    (hd : d.nodes.get? name ≠ some .directory) : SameDirectories d d' :=
  h.sameBut.sameDirectories hd (by simp [h.content])

theorem Removed.sameDirectories (h : Removed d name d')
    (hd : d.nodes.get? name ≠ some .directory) : SameDirectories d d' :=
  h.sameBut.sameDirectories hd (by simp [h.content])

theorem Renamed.sameDirectories (h : Renamed d source target d')
    (hs : d.nodes.get? source = some (.file i c)) (ht : d.nodes.get? target ≠ some .directory) :
    SameDirectories d d' := by
  intro n
  by_cases hn : n = source
  · subst hn
    simp [h.gone, hs]
  · by_cases hn' : n = target
    · subst hn'
      exact iff_of_false (by simp [h.arrived, hs]) ht
    · rw [h.others n hn hn']

theorem read_of_content? {bytes : List UInt8} (h : d.content? name = some bytes) :
    d.read name = .ok bytes := by
  unfold content? at h
  cases hr : d.read name with
  | error e => rw [hr] at h; exact absurd h nofun
  | ok c => rw [hr] at h; exact congrArg _ (Option.some.inj h)

/-- Only where there is a directory a file cannot be created or emptied. -/
theorem create_error_iff (hb : d.hasBase = true) :
    (∃ e, d.create name = .error e) ↔ d.nodes.get? name = some .directory := by
  unfold create
  split <;> simp_all [Disk.newFile]

/-- Only where there is no file none can be removed. -/
theorem remove_error_iff : (∃ e, d.remove name = .error e) ↔
    d.nodes.get? name = none ∨ d.nodes.get? name = some .directory := by
  unfold remove
  split <;> simp_all

/-- A file can be cut. -/
theorem setLength_ok {length : Nat} (h : d.nodes.get? name = some (.file i c))
    (hlen : length ≤ c.length) : ∃ d', d.setLength name length = .ok d' := by
  have hnot : ¬ (c.length < length ∧ maxFileLength < length) := fun hlt =>
    Nat.not_lt.mpr hlen hlt.1
  rw [setLength, h]
  dsimp only
  rw [if_neg hnot]
  exact ⟨_, rfl⟩

end

/-! ## All operations -/

theorem Sound.openOrCreateAt {d d' : Disk} (hd : d.Sound) {path : String} {i : Nat}
    (h : d.openOrCreateAt path = .ok (i, d')) : d'.Sound := by
  unfold Disk.openOrCreateAt at h
  cases hn : d.newFileAt path with
  | error e => simp [hn, Except.bind] at h
  | ok name =>
    simp only [hn, Except.bind] at h
    split at h
    · cases ho : d.openFile name with
      | error e => simp [ho, Except.map] at h
      | ok f =>
        simp only [ho, Except.map, Except.ok.injEq, Prod.mk.injEq] at h
        exact h.2 ▸ hd
    · exact hd.newFile h

/-- No operation makes two names stand for one file. -/
theorem Sound.apply {d : Disk} (hd : d.Sound) (op : FileOp) : (op.apply d).2.Sound := by
  have hopened : ∀ {r : Except FileError (Nat × Disk)}, (∀ i d', r = .ok (i, d') → d'.Sound) →
      (FileOp.opened d r).2.Sound := by
    intro r hr
    cases r with
    | error e => exact hd
    | ok p => exact hr p.1 p.2 rfl
  have hchanged : ∀ {r : Except FileError Disk}, (∀ d', r = .ok d' → d'.Sound) →
      (FileOp.changed d r).2.Sound := by
    intro r hr
    cases r with
    | error e => exact hd
    | ok d' => exact hr d' rfl
  cases op with
  | ensureBase => exact ⟨hd.apart, hd.fresh⟩
  | isThere | read | openFile | syncFile | syncNames | names => exact hd
  | createNew => exact hopened fun i d' h => (hd.opened_createNew h).sound
  | create => exact hopened fun i d' h => (hd.opened_create h).sound
  | openOrCreateAt => exact hopened fun i d' h => hd.openOrCreateAt h
  | append => exact hd.append _ _
  | rename => exact hchanged fun d' h => hd.rename h
  | setLength => exact hchanged fun d' h => (hd.resized h).sound
  | remove => exact hchanged fun d' h => (hd.removed h).sound

end LedgerGate.Disk

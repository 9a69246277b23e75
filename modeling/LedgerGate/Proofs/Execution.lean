import LedgerGate.Program
import Mathlib.Tactic.Common

/-!
# Executions that may stop or fail

A program may be stopped before any of its file operations, and in the middle of an append.
An `Execution` says which disks it has left behind until then. To say what holds of all of
them, `Program.Keeps` asks for an invariant of every such disk and for a postcondition of the
result, and follows the program operation by operation; `Execution.keeps` is its soundness.
What was seen of the disks so far is carried along.

What a program comes to when operations fail that would have succeeded, `Program.Yields` says.
-/

namespace LedgerGate

/-- Whether an operation can be stopped in the middle and leave a disk behind. -/
def FileOp.Tears (op : FileOp) (d d' : Disk) : Prop :=
  match op with
  | .append id bytes => ∃ k, d' = d.append id (bytes.take k)
  | _ => False

/-- An execution of a program on a disk: the disks after its operations, the last of them,
and the result, unless it was stopped. -/
inductive Execution {α : Type} : Program α → Disk → List Disk → Disk → Option α → Prop
  | done (a : α) (d : Disk) : Execution (.done a) d [] d (some a)
  | stop (p : Program α) (d : Disk) : Execution p d [] d none
  | tear {op : FileOp} {next : Except FileError op.Reply → Program α} {d d' : Disk} :
    op.Tears d d' → Execution (.perform op next) d [d'] d' none
  | step {op : FileOp} {next : Except FileError op.Reply → Program α} {d d' : Disk}
    {ds : List Disk} {r : Option α} :
    Execution (next (op.apply d).1) (op.apply d).2 ds d' r →
    Execution (.perform op next) d ((op.apply d).2 :: ds) d' r

/-- Running a program from end to end is an execution of it. -/
theorem Execution.of_run {α : Type} (p : Program α) (d : Disk) :
    ∃ ds, Execution p d ds (p.run d).2 (some (p.run d).1) := by
  induction p generalizing d with
  | done a => exact ⟨[], .done a d⟩
  | perform op next ih =>
    obtain ⟨ds, h⟩ := ih (op.apply d).1 (op.apply d).2
    exact ⟨_, .step h⟩

theorem Execution.exists_of_run {α : Type} {p : Program α} {d d' : Disk} {a : α}
    (h : p.run d = (a, d')) : ∃ ds, Execution p d ds d' (some a) := by
  obtain ⟨ds, he⟩ := Execution.of_run p d
  rw [h] at he
  exact ⟨ds, he⟩

/-- An execution with a result is a run from end to end. -/
theorem Execution.run_eq {α : Type} {p : Program α} {d d' : Disk} {ds : List Disk} {a : α}
    (h : Execution p d ds d' (some a)) : p.run d = (a, d') := by
  induction p generalizing d ds with
  | done b => cases h; rfl
  | perform op next ih => cases h with | step h => exact ih _ h

/-- An execution ends with the last of the disks that it leaves behind, if there are any. -/
theorem Execution.disk_mem {α : Type} {p : Program α} {d d' : Disk} {ds : List Disk}
    {r : Option α} (h : Execution p d ds d' r) : d' = d ∨ d' ∈ ds := by
  induction h with
  | done | stop => exact .inl rfl
  | tear => exact .inr List.mem_cons_self
  | step _ ih => exact .inr (List.mem_cons.mpr ih)

namespace Program

variable {α β η : Type}

section

variable (see : η → Disk → η) (I : η → Disk → Prop)

/-- Whether a program leaves only disks of an invariant behind, wherever it stops, and ends
in a postcondition. -/
def Keeps : Program α → (α → η → Disk → Prop) → η → Disk → Prop
  | done a, Q, h, d => Q a h d
  | perform op next, Q, h, d =>
    (∀ d', op.Tears d d' → I (see h d') d') ∧ I (see h (op.apply d).2) (op.apply d).2 ∧
      Keeps (next (op.apply d).1) Q (see h (op.apply d).2) (op.apply d).2

end

variable {see : η → Disk → η} {I : η → Disk → Prop}

theorem Keeps.mono {p : Program α} {Q Q' : α → η → Disk → Prop} {h : η} {d : Disk}
    (hp : p.Keeps see I Q h d) (hQ : ∀ a h d, Q a h d → Q' a h d) : p.Keeps see I Q' h d := by
  induction p generalizing h d with
  | done a => exact hQ a h d hp
  | perform op next ih => exact ⟨hp.1, hp.2.1, ih _ hp.2.2⟩

theorem Keeps.bind {p : Program α} {f : α → Program β} {Q : β → η → Disk → Prop} {h : η}
    {d : Disk} (hp : p.Keeps see I (fun a => (f a).Keeps see I Q) h d) :
    (p >>= f).Keeps see I Q h d := by
  show (p.bind f).Keeps see I Q h d
  induction p generalizing h d with
  | done a => exact hp
  | perform op next ih => exact ⟨hp.1, hp.2.1, ih _ hp.2.2⟩

theorem keeps_pure {a : α} {Q : α → η → Disk → Prop} {h : η} {d : Disk} (hQ : Q a h d) :
    (pure a : Program α).Keeps see I Q h d := hQ

/-- Whether a program ends in a result of a kind on every disk. -/
def Returns (p : Program α) (Q : α → Prop) : Prop := ∀ d, Q (p.run d).1

theorem returns_pure {a : α} {Q : α → Prop} (h : Q a) : (pure a : Program α).Returns Q :=
  fun _ => h

theorem Returns.mono {p : Program α} {P Q : α → Prop} (hp : p.Returns P) (h : ∀ a, P a → Q a) :
    p.Returns Q := fun d => h _ (hp d)

theorem Returns.bind {p : Program α} {f : α → Program β} {P : α → Prop} {Q : β → Prop}
    (hp : p.Returns P) (hf : ∀ a, P a → (f a).Returns Q) : (p >>= f).Returns Q := fun d => by
  rw [run_bind]
  exact hf _ (hp d) _

end Program

/-- Wherever an execution of a program that keeps an invariant stops, the invariant holds, and
if it has a result, so does the postcondition. -/
theorem Execution.keeps {α η : Type} {see : η → Disk → η} {I : η → Disk → Prop} {p : Program α}
    {Q : α → η → Disk → Prop} {h : η} {d d' : Disk} {ds : List Disk} {r : Option α}
    (he : Execution p d ds d' r) (hI : I h d) (hp : p.Keeps see I Q h d) :
    I (ds.foldl see h) d' ∧ ∀ a ∈ r, Q a (ds.foldl see h) d' := by
  induction he generalizing h with
  | done a d => exact ⟨hI, fun b hb => Option.mem_some_iff.mp hb ▸ hp⟩
  | stop p d => exact ⟨hI, nofun⟩
  | tear ht => exact ⟨hp.1 _ ht, nofun⟩
  | step _ ih => exact ih hp.2.1 hp.2.2

namespace Job

variable {α β η : Type}

/-- What `Program.Keeps` is for jobs, with a postcondition for results and one for faults. -/
def Keeps (see : η → Disk → η) (I : η → Disk → Prop) (x : Job α) (Q : α → η → Disk → Prop)
    (E : Fault → η → Disk → Prop) : η → Disk → Prop :=
  Program.Keeps see I x.run fun r => match r with
    | .ok a => Q a
    | .error f => E f

variable {see : η → Disk → η} {I : η → Disk → Prop} {Q : α → η → Disk → Prop}
  {E : Fault → η → Disk → Prop} {h : η} {d : Disk}

theorem Keeps.mono {x : Job α} {Q' : α → η → Disk → Prop} {E' : Fault → η → Disk → Prop}
    (hx : x.Keeps see I Q E h d) (hQ : ∀ a h d, Q a h d → Q' a h d)
    (hE : ∀ f h d, E f h d → E' f h d) : x.Keeps see I Q' E' h d :=
  Program.Keeps.mono hx fun r h d hr => by
    cases r with
    | ok a => exact hQ a h d hr
    | error f => exact hE f h d hr

theorem Keeps.bind {x : Job α} {f : α → Job β} {Q : β → η → Disk → Prop}
    (hx : x.Keeps see I (fun a => (f a).Keeps see I Q E) E h d) :
    (x >>= f).Keeps see I Q E h d := by
  show Program.Keeps see I (x.run >>= ExceptT.bindCont f) _ h d
  refine Program.Keeps.bind (Program.Keeps.mono hx fun r h d hr => ?_)
  cases r with
  | ok a => exact hr
  | error f => exact hr

/-- A program that goes on with the outcome of a job. -/
theorem Keeps.run_bind {x : Job α} {f : Except Fault α → Program β} {Q : β → η → Disk → Prop}
    (hx : x.Keeps see I (fun a => (f (.ok a)).Keeps see I Q)
      (fun e => (f (.error e)).Keeps see I Q) h d) :
    (x.run >>= f).Keeps see I Q h d := by
  refine Program.Keeps.bind (Program.Keeps.mono hx fun r h d hr => ?_)
  cases r with
  | ok a => exact hr
  | error e => exact hr

theorem keeps_pure {a : α} (hQ : Q a h d) : (pure a : Job α).Keeps see I Q E h d := hQ

theorem keeps_attempt {op : FileOp} {Q : Except FileError op.Reply → η → Disk → Prop}
    (htear : ∀ d', op.Tears d d' → I (see h d') d')
    (hI : I (see h (op.apply d).2) (op.apply d).2)
    (hQ : Q (op.apply d).1 (see h (op.apply d).2) (op.apply d).2) :
    (attempt op).Keeps see I Q E h d := ⟨htear, hI, hQ⟩

theorem keeps_fail {f : Fault} (hE : E f h d) : (fail f : Job α).Keeps see I Q E h d := hE

theorem keeps_ofExcept {r : Except Fault α} (hQ : ∀ a, r = .ok a → Q a h d)
    (hE : ∀ f, r = .error f → E f h d) : (ofExcept r).Keeps see I Q E h d := by
  cases r with
  | ok a => exact hQ a rfl
  | error f => exact hE f rfl

/-- One operation, by what it leaves behind and what it answers. -/
theorem keeps_perform {path : String} {op : FileOp} {Q : op.Reply → η → Disk → Prop}
    (htear : ∀ d', op.Tears d d' → I (see h d') d')
    (hI : I (see h (op.apply d).2) (op.apply d).2)
    (hQ : ∀ a, (op.apply d).1 = .ok a → Q a (see h (op.apply d).2) (op.apply d).2)
    (hE : ∀ e, (op.apply d).1 = .error e →
      E (.io path e.message) (see h (op.apply d).2) (op.apply d).2) :
    (perform path op).Keeps see I Q E h d := by
  refine ⟨htear, hI, ?_⟩
  generalize (op.apply d).1 = r at hQ hE
  cases r with
  | ok a => exact hQ a rfl
  | error e => exact hE e rfl

/-- An operation that changes nothing, on a disk of which everything has been seen. -/
theorem keeps_look {path : String} {op : FileOp} {Q : op.Reply → η → Disk → Prop}
    (hop : (op.apply d).2 = d) (htear : ∀ d', ¬ op.Tears d d') (hI : I h d) (hsee : see h d = h)
    (hQ : ∀ a, (op.apply d).1 = .ok a → Q a h d)
    (hE : ∀ e, (op.apply d).1 = .error e → E (.io path e.message) h d) :
    (perform path op).Keeps see I Q E h d := by
  refine keeps_perform (fun d' hd' => absurd hd' (htear d')) ?_ ?_ ?_ <;> rw [hop, hsee]
  · exact hI
  · exact hQ
  · exact hE

/-! ## Runs from end to end -/

/-- Whether a job ends in a result of a kind on every disk, if not in a fault. -/
def Returns (x : Job α) (Q : α → Prop) : Prop := x.run.Returns fun r => ∀ a, r = .ok a → Q a

theorem returns_pure {a : α} {Q : α → Prop} (h : Q a) : (pure a : Job α).Returns Q :=
  fun _ _ hb => Except.ok.inj hb ▸ h

theorem returns_fail {f : Fault} {Q : α → Prop} : (fail f : Job α).Returns Q :=
  fun _ _ h => absurd h nofun

theorem returns_true (x : Job α) : x.Returns fun _ => True := fun _ _ _ => trivial

theorem Returns.mono {x : Job α} {P Q : α → Prop} (hx : x.Returns P) (h : ∀ a, P a → Q a) :
    x.Returns Q := fun d a ha => h a (hx d a ha)

theorem Returns.bind {x : Job α} {f : α → Job β} {P : α → Prop} {Q : β → Prop}
    (hx : x.Returns P) (hf : ∀ a, P a → (f a).Returns Q) : (x >>= f).Returns Q := by
  show Program.Returns (x.run >>= ExceptT.bindCont f) _
  refine Program.Returns.bind hx fun r hr => ?_
  cases r with
  | ok a => exact hf a (hr a rfl)
  | error e => exact fun _ _ h => absurd h nofun

variable {e : Disk}

theorem run_run_bind_ok {x : Job α} {f : Except Fault α → Program β} {a : α}
    (h : x.run.run d = (.ok a, e)) : (x.run >>= f).run d = (f (.ok a)).run e := by
  rw [Program.run_bind, h]

theorem run_bind_ok {x : Job α} {f : α → Job β} {a : α} (h : x.run.run d = (.ok a, e)) :
    (x >>= f).run.run d = (f a).run.run e := by
  show (x.run >>= ExceptT.bindCont f).run d = _
  rw [Program.run_bind, h]
  rfl

theorem run_bind_error {x : Job α} {f : α → Job β} {g : Fault}
    (h : x.run.run d = (.error g, e)) : (x >>= f).run.run d = (.error g, e) := by
  show (x.run >>= ExceptT.bindCont f).run d = _
  rw [Program.run_bind, h]
  rfl

/-- A job that comes to a result has come to one in its first part. -/
theorem run_bind_eq_ok {x : Job α} {f : α → Job β} {b : β}
    (h : (x >>= f).run.run d = (.ok b, e)) :
    ∃ a d₁, x.run.run d = (.ok a, d₁) ∧ (f a).run.run d₁ = (.ok b, e) := by
  cases hx : x.run.run d with
  | mk r d₁ =>
    cases r with
    | ok a => exact ⟨a, d₁, rfl, (run_bind_ok hx).symm.trans h⟩
    | error g => exact absurd (Prod.mk.inj ((run_bind_error hx).symm.trans h)).1 nofun

/-- One operation that succeeds. -/
theorem run_perform_ok {path : String} (op : FileOp) {a : op.Reply}
    (h : op.apply d = (.ok a, e)) : (perform path op).run.run d = (.ok a, e) := by
  show Program.run (.perform op _) d = _
  rw [Program.run, h]
  rfl

/-- One operation that fails. -/
theorem run_perform_error {path : String} (op : FileOp) {c : FileError}
    (h : op.apply d = (.error c, e)) :
    (perform path op).run.run d = (.error (.io path c.message), e) := by
  show Program.run (.perform op _) d = _
  rw [Program.run, h]
  rfl

/-! ## Faults -/

/-- Whether all faults that a job may end in are of a kind, on every disk. -/
def Raises (x : Job α) (E : Fault → Prop) : Prop := x.run.Returns fun r => ∀ f, r = .error f → E f

variable {F : Fault → Prop}

theorem raises_pure (a : α) : (pure a : Job α).Raises F := fun _ _ h => absurd h nofun

theorem raises_perform (path : String) (op : FileOp) (h : ∀ source, F (.io path source)) :
    (perform path op).Raises F := by
  intro d f hf
  rcases happly : op.apply d with ⟨a | a, d'⟩
  · rw [run_perform_error op happly] at hf
    obtain rfl := Except.error.inj hf
    exact h _
  · rw [run_perform_ok op happly] at hf
    cases hf

theorem Raises.bind {x : Job α} {f : α → Job β} (hx : x.Raises F) (hf : ∀ a, (f a).Raises F) :
    (x >>= f).Raises F := by
  show Program.Returns (x.run >>= ExceptT.bindCont f) _
  refine Program.Returns.bind hx fun r hr => ?_
  cases r with
  | ok a => exact hf a
  | error e =>
    intro d g hg
    obtain rfl := Except.error.inj hg
    exact hr e rfl

end Job

/-! ## Programs that only look -/

/-- Whether an operation changes no disk. -/
def FileOp.IsLook : FileOp → Prop
  | isThere _ | read _ | openFile _ | syncFile _ | syncNames | names => True
  | _ => False

theorem FileOp.IsLook.apply {op : FileOp} (h : op.IsLook) (d : Disk) : (op.apply d).2 = d := by
  cases op <;> first | rfl | exact h.elim

theorem FileOp.IsLook.not_tears {op : FileOp} (h : op.IsLook) (d d' : Disk) :
    ¬ op.Tears d d' := by
  cases op <;> first | exact id | exact h.elim

/-- Whether all operations of a program are looks, whatever their replies are. -/
def Program.OnlyLooks {α : Type} : Program α → Prop
  | done _ => True
  | perform op next => op.IsLook ∧ ∀ r, (next r).OnlyLooks

/-- A program that only looks leaves a disk as it is, wherever it stops. -/
theorem Program.OnlyLooks.execution {α : Type} {p : Program α} (h : p.OnlyLooks) {d d' : Disk}
    {ds : List Disk} {r : Option α} (he : Execution p d ds d' r) :
    d' = d ∧ ∀ x ∈ ds, x = d := by
  induction he with
  | done | stop => exact ⟨rfl, nofun⟩
  | tear ht => exact absurd ht (h.1.not_tears _ _)
  | step _ ih =>
    obtain ⟨hlook, hnext⟩ := h
    rw [hlook.apply] at ih ⊢
    obtain ⟨heq, hall⟩ := ih (hnext _)
    exact ⟨heq, List.forall_mem_cons.mpr ⟨rfl, hall⟩⟩

theorem Program.OnlyLooks.run {α : Type} {p : Program α} (h : p.OnlyLooks) (d : Disk) :
    (p.run d).2 = d := by
  obtain ⟨ds, he⟩ := Execution.of_run p d
  exact (h.execution he).1

theorem Program.OnlyLooks.bind {α β : Type} {p : Program α} {f : α → Program β}
    (hp : p.OnlyLooks) (hf : ∀ a, (f a).OnlyLooks) : (p >>= f).OnlyLooks := by
  show (p.bind f).OnlyLooks
  induction p with
  | done a => exact hf a
  | perform op next ih => exact ⟨hp.1, fun r => ih r (hp.2 r)⟩

namespace Job

variable {α β : Type}

/-- What `Program.OnlyLooks` is for jobs. -/
def OnlyLooks (x : Job α) : Prop := Program.OnlyLooks x.run

theorem onlyLooks_pure (a : α) : (pure a : Job α).OnlyLooks := trivial

theorem onlyLooks_fail (f : Fault) : (fail f : Job α).OnlyLooks := trivial

theorem onlyLooks_ofExcept (r : Except Fault α) : (ofExcept r).OnlyLooks := trivial

theorem onlyLooks_perform {op : FileOp} (path : String) (h : op.IsLook) :
    (perform path op).OnlyLooks := ⟨h, fun _ => trivial⟩

theorem onlyLooks_attempt {op : FileOp} (h : op.IsLook) : (attempt op).OnlyLooks :=
  ⟨h, fun _ => trivial⟩

theorem OnlyLooks.bind {x : Job α} {f : α → Job β} (hx : x.OnlyLooks)
    (hf : ∀ a, (f a).OnlyLooks) : (x >>= f).OnlyLooks := by
  show (x.run >>= ExceptT.bindCont f : Program _).OnlyLooks
  refine Program.OnlyLooks.bind hx fun r => ?_
  cases r with
  | ok a => exact hf a
  | error e => exact trivial

theorem OnlyLooks.run {x : Job α} (hx : x.OnlyLooks) (d : Disk) : (x.run.run d).2 = d :=
  Program.OnlyLooks.run hx d

theorem OnlyLooks.run_bind_eq_ok {x : Job α} (hx : x.OnlyLooks) {f : α → Job β} {b : β}
    {d e : Disk} (h : (x >>= f).run.run d = (.ok b, e)) :
    ∃ a, x.run.run d = (.ok a, d) ∧ (f a).run.run d = (.ok b, e) := by
  obtain ⟨a, d₁, hrun, hrest⟩ := Job.run_bind_eq_ok h
  obtain rfl : d₁ = d := by rw [← hx.run d, hrun]
  exact ⟨a, hrun, hrest⟩

end Job

/-- An execution of two programs, one after the other, stops in the first or goes through it. -/
theorem Execution.of_bind {α β : Type} {p : Program α} {f : α → Program β} {d d' : Disk}
    {ds : List Disk} {r : Option β} (h : Execution (p >>= f) d ds d' r) :
    Execution p d ds d' none ∨
      ∃ a d₁ ds₁ ds₂, Execution p d ds₁ d₁ (some a) ∧ Execution (f a) d₁ ds₂ d' r ∧
        ds = ds₁ ++ ds₂ := by
  change Execution (p.bind f) d ds d' r at h
  induction p generalizing d ds with
  | done a => exact .inr ⟨a, d, [], ds, .done a d, h, rfl⟩
  | perform op next ih =>
    cases h with
    | stop => exact .inl (.stop _ _)
    | tear ht => exact .inl (.tear ht)
    | step h =>
      rcases ih _ h with h | ⟨a, d₁, ds₁, ds₂, h₁, h₂, rfl⟩
      · exact .inl (.step h)
      · exact .inr ⟨a, d₁, _, ds₂, .step h₁, h₂, rfl⟩

/-! ## Operations that fail -/

namespace Program

variable {α β : Type} {fails : FileOp → Prop} {d d' : Disk}

/-- Whether a program may come to a result and leave a disk, if operations of a kind may fail. One
that fails so has changed nothing. -/
inductive Yields (fails : FileOp → Prop) : Program α → Disk → α → Disk → Prop
  | done (a : α) (d : Disk) : Yields fails (.done a) d a d
  | perform {op : FileOp} {next : Except FileError op.Reply → Program α} {d d' : Disk} {a : α} :
    Yields fails (next (op.apply d).1) (op.apply d).2 a d' →
    Yields fails (.perform op next) d a d'
  | fail {op : FileOp} {next : Except FileError op.Reply → Program α} {d d' : Disk} {a : α}
    (e : FileError) : fails op → Yields fails (next (.error e)) d a d' →
    Yields fails (.perform op next) d a d'

/-- It may be that no operation fails. -/
theorem yields_run (p : Program α) (d : Disk) : p.Yields fails d (p.run d).1 (p.run d).2 := by
  induction p generalizing d with
  | done a => exact .done a d
  | perform op next ih => exact .perform (ih _ _)

theorem yields_of_run {p : Program α} {a : α} (h : p.run d = (a, d')) : p.Yields fails d a d' := by
  have hrun : p.Yields fails d (p.run d).1 (p.run d).2 := yields_run p d
  rwa [h] at hrun

theorem Yields.eq_of_pure {a b : α} (h : (pure a : Program α).Yields fails d b d') :
    b = a ∧ d' = d := by
  cases h
  exact ⟨rfl, rfl⟩

theorem Yields.of_bind {p : Program α} {f : α → Program β} {b : β}
    (h : (p >>= f).Yields fails d b d') :
    ∃ a d₁, p.Yields fails d a d₁ ∧ (f a).Yields fails d₁ b d' := by
  change (p.bind f).Yields fails d b d' at h
  induction p generalizing d with
  | done a => exact ⟨a, d, .done a d, h⟩
  | perform op next ih =>
    cases h with
    | perform h =>
      obtain ⟨a, d₁, hfirst, hrest⟩ := ih _ h
      exact ⟨a, d₁, .perform hfirst, hrest⟩
    | fail e hfails h =>
      obtain ⟨a, d₁, hfirst, hrest⟩ := ih _ h
      exact ⟨a, d₁, .fail e hfails hfirst, hrest⟩

end Program

namespace Job

variable {α β : Type} {fails : FileOp → Prop} {d d' : Disk}

/-- A job goes on after its first part, or ends in the fault of it. -/
theorem yields_bind {x : Job α} {f : α → Job β} {r : Except Fault β}
    (h : (x >>= f).run.Yields fails d r d') :
    (∃ a d₁, x.run.Yields fails d (.ok a) d₁ ∧ (f a).run.Yields fails d₁ r d') ∨
      ∃ e, x.run.Yields fails d (.error e) d' ∧ r = .error e := by
  change (x.run >>= ExceptT.bindCont f).Yields fails d r d' at h
  obtain ⟨s, d₁, hfirst, hrest⟩ := h.of_bind
  cases s with
  | ok a => exact .inl ⟨a, d₁, hfirst, hrest⟩
  | error e =>
    obtain ⟨rfl, rfl⟩ := hrest.eq_of_pure
    exact .inr ⟨e, hfirst, rfl⟩

/-- One operation answers as it does, or it fails. -/
theorem yields_perform {path : String} {op : FileOp} {r : Except Fault op.Reply}
    (h : (perform path op).run.Yields fails d r d') :
    (∃ a, r = .ok a ∧ op.apply d = (.ok a, d')) ∨
      ∃ e, r = .error (.io path e.message) ∧ (op.apply d = (.error e, d') ∨ fails op ∧ d' = d) := by
  change (Program.perform op _).Yields fails d r d' at h
  cases h with
  | perform h =>
    obtain ⟨rfl, rfl⟩ := Program.Yields.eq_of_pure h
    rcases happly : op.apply d with ⟨a | a, e⟩
    · exact .inr ⟨a, rfl, .inl rfl⟩
    · exact .inl ⟨a, rfl, rfl⟩
  | fail e hfails h =>
    obtain ⟨rfl, rfl⟩ := Program.Yields.eq_of_pure h
    exact .inr ⟨e, rfl, .inr ⟨hfails, rfl⟩⟩

/-- An operation that cannot fail by itself. -/
theorem yields_perform_ok {path : String} (op : FileOp) {r : Except Fault op.Reply} {a : op.Reply}
    {e : Disk} (happly : op.apply d = (.ok a, e)) (h : (perform path op).run.Yields fails d r d') :
    (r = .ok a ∧ d' = e) ∨ (∃ f, r = .error f) ∧ fails op ∧ d' = d := by
  rcases yields_perform h with ⟨b, rfl, hb⟩ | ⟨c, rfl, hc | hc⟩
  · obtain ⟨hab, rfl⟩ := Prod.mk.inj (hb.symm.trans happly)
    exact .inl ⟨congrArg _ (Except.ok.inj hab), rfl⟩
  · exact absurd (Prod.mk.inj (hc.symm.trans happly)).1 nofun
  · exact .inr ⟨⟨_, rfl⟩, hc⟩

/-- What follows an operation that cannot fail by itself. -/
theorem yields_perform_bind {path : String} (op : FileOp) {f : op.Reply → Job β}
    {r : Except Fault β} {a : op.Reply} {e : Disk} (happly : op.apply d = (.ok a, e))
    (h : (perform path op >>= f).run.Yields fails d r d') :
    (f a).run.Yields fails e r d' ∨ (∃ c, r = .error c) ∧ fails op ∧ d' = d := by
  rcases yields_bind h with ⟨b, d₁, hfirst, hrest⟩ | ⟨c, hfirst, rfl⟩
  · rcases yields_perform_ok op happly hfirst with ⟨hb, rfl⟩ | ⟨⟨c, hc⟩, -⟩
    · obtain rfl := Except.ok.inj hb
      exact .inl hrest
    · exact absurd hc nofun
  · rcases yields_perform_ok op happly hfirst with ⟨hc, -⟩ | ⟨-, hfails, rfl⟩
    · exact absurd hc nofun
    · exact .inr ⟨⟨c, rfl⟩, hfails, rfl⟩

/-- Nothing follows an operation that fails by itself. -/
theorem yields_perform_bind_error {path : String} (op : FileOp) {f : op.Reply → Job β}
    {r : Except Fault β} {c : FileError} (happly : op.apply d = (.error c, d))
    (h : (perform path op >>= f).run.Yields fails d r d') : (∃ c, r = .error c) ∧ d' = d := by
  rcases yields_bind h with ⟨b, d₁, hfirst, -⟩ | ⟨c, hfirst, rfl⟩
  · rcases yields_perform hfirst with ⟨a, -, ha⟩ | ⟨e, he, -⟩
    · exact absurd (Prod.mk.inj (ha.symm.trans happly)).1 nofun
    · exact absurd he nofun
  · rcases yields_perform hfirst with ⟨a, ha, -⟩ | ⟨e, -, he | ⟨-, rfl⟩⟩
    · exact absurd ha nofun
    · exact ⟨⟨c, rfl⟩, (Prod.mk.inj (he.symm.trans happly)).2⟩
    · exact ⟨⟨c, rfl⟩, rfl⟩

end Job

/-! ## Jobs that give up -/

/-- Whether a program ends in a fault with the first operation that fails. -/
def Program.GivesUp {α : Type} : Program (Except Fault α) → Prop
  | done _ => True
  | perform _ next =>
    (∀ e, ∃ f, next (.error e) = .done (.error f)) ∧ ∀ a, (next (.ok a)).GivesUp

/-- Where a program gives up, an operation that fails leaves what is left when the program is
stopped before it. -/
theorem Program.GivesUp.execution {α : Type} {p : Program (Except Fault α)} (hp : p.GivesUp)
    {fails : FileOp → Prop} {d d' : Disk} {r : Except Fault α} (h : p.Yields fails d r d') :
    (∃ ds, Execution p d ds d' (some r)) ∨
      (∃ f, r = .error f) ∧ ∃ ds, Execution p d ds d' none := by
  induction p generalizing d with
  | done a =>
    cases h
    exact .inl ⟨[], .done _ _⟩
  | perform op next ih =>
    obtain ⟨hfails, hnext⟩ := hp
    cases h with
    | fail e _ h =>
      obtain ⟨f, hf⟩ := hfails e
      rw [hf] at h
      obtain ⟨rfl, rfl⟩ := Program.Yields.eq_of_pure h
      exact .inr ⟨⟨f, rfl⟩, [], .stop _ _⟩
    | perform h =>
      have hrest : (next (op.apply d).1).GivesUp := by
        cases (op.apply d).1 with
        | ok a => exact hnext a
        | error e =>
          obtain ⟨f, hf⟩ := hfails e
          rw [hf]
          trivial
      rcases ih _ hrest h with ⟨ds, he⟩ | ⟨hf, ds, he⟩
      · exact .inl ⟨_, .step he⟩
      · exact .inr ⟨hf, _, .step he⟩

namespace Job

variable {α β : Type}

/-- What `Program.GivesUp` is for jobs. -/
def GivesUp (x : Job α) : Prop := Program.GivesUp x.run

theorem givesUp_pure (a : α) : (pure a : Job α).GivesUp := trivial

theorem givesUp_fail (f : Fault) : (fail f : Job α).GivesUp := trivial

theorem givesUp_ofExcept (r : Except Fault α) : (ofExcept r).GivesUp := trivial

theorem givesUp_perform (path : String) (op : FileOp) : (perform path op).GivesUp :=
  ⟨fun _ => ⟨_, rfl⟩, fun _ => trivial⟩

theorem GivesUp.bind {x : Job α} {f : α → Job β} (hx : x.GivesUp) (hf : ∀ a, (f a).GivesUp) :
    (x >>= f).GivesUp := by
  show Program.GivesUp (Program.bind x.run (ExceptT.bindCont f))
  have hx' : Program.GivesUp x.run := hx
  generalize x.run = p at hx'
  induction p with
  | done r =>
    cases r with
    | ok a => exact hf a
    | error e => trivial
  | perform op next ih =>
    obtain ⟨hfails, hnext⟩ := hx'
    refine ⟨fun e => ?_, fun a => ih _ (hnext a)⟩
    obtain ⟨g, hg⟩ := hfails e
    refine ⟨g, ?_⟩
    show (next (.error e)).bind _ = _
    rw [hg]
    rfl

end Job

end LedgerGate

import LedgerGate.Disk.Path
import LedgerGate.Fault

/-!
# Programs over files

What the ledger does to its files is written as a `Program`: single file operations,
each with what to do on its reply. A program can be run from end to end on a directory;
since every operation stands alone, one can also say what is left behind when it stops
between any two of them, in the middle of an append, or when one of them fails.
-/

namespace LedgerGate

/-- A single operation on the files of a directory. -/
inductive FileOp where
  /-- Creates the base unless it is there. -/
  | ensureBase
  /-- Whether a name is in use. -/
  | isThere (name : String)
  /-- Reads a file. -/
  | read (name : String)
  /-- Creates a file that is not there yet. -/
  | createNew (name : String)
  /-- Creates a file or empties it. -/
  | create (name : String)
  /-- Opens a file to append to it. -/
  | openFile (name : String)
  /-- Opens the file of a path to append to it, and creates it if it is not there. -/
  | openOrCreateAt (path : String)
  /-- Appends bytes to an open file. -/
  | append (id : Nat) (bytes : List UInt8)
  /-- Waits until an open file is on the disk. -/
  | syncFile (id : Nat)
  /-- Waits until the names of the directory are on the disk. -/
  | syncNames
  /-- Renames a file in place of another. -/
  | rename (source target : String)
  /-- Cuts a file to a length. -/
  | setLength (name : String) (length : Nat)
  /-- Removes a file. -/
  | remove (name : String)
  /-- Lists all names. -/
  | names
deriving DecidableEq, Repr

namespace FileOp

/-- What an operation answers when it succeeds. -/
def Reply : FileOp → Type
  | isThere _ => Bool
  | read _ => List UInt8
  | createNew _ => Nat
  | create _ => Nat
  | openFile _ => Nat × Nat
  | openOrCreateAt _ => Nat
  | names => List String
  | _ => Unit

/-- The reply to a change of the directory that may fail. -/
def changed (d : Disk) : Except FileError Disk → Except FileError Unit × Disk
  | .ok d' => (.ok (), d')
  | .error e => (.error e, d)

/-- The reply to the opening of a new or emptied file. -/
def opened (d : Disk) : Except FileError (Nat × Disk) → Except FileError Nat × Disk
  | .ok (id, d') => (.ok id, d')
  | .error e => (.error e, d)

/-- Does an operation on a directory. -/
def apply (op : FileOp) (d : Disk) : Except FileError op.Reply × Disk :=
  match op with
  | ensureBase => (.ok (), { d with hasBase := true })
  | isThere name => (.ok (d.isThere name), d)
  | read name => (d.read name, d)
  | createNew name => opened d (d.createNew name)
  | create name => opened d (d.create name)
  | openFile name => (d.openFile name, d)
  | openOrCreateAt path => opened d (d.openOrCreateAt path)
  | append id bytes => (.ok (), d.append id bytes)
  | syncFile _ => (.ok (), d)
  | syncNames => (d.checkBase, d)
  | rename source target => changed d (d.rename source target)
  | setLength name length => changed d (d.setLength name length)
  | remove name => changed d (d.remove name)
  | names => (d.list, d)

end FileOp

/-- File operations with what to do on their replies. -/
inductive Program (α : Type) where
  | done (a : α)
  | perform (op : FileOp) (next : Except FileError op.Reply → Program α)

namespace Program

variable {α β : Type}

/-- One program after another. -/
protected def bind : Program α → (α → Program β) → Program β
  | done a, f => f a
  | perform op next, f => perform op (fun r => (next r).bind f)

instance : Monad Program where
  pure := done
  bind := Program.bind

/-- Runs a program from end to end. -/
def run : Program α → Disk → α × Disk
  | done a, d => (a, d)
  | perform op next, d => (next (op.apply d).1).run (op.apply d).2

@[simp]
theorem run_done (a : α) (d : Disk) : (done a).run d = (a, d) := rfl

theorem run_bind (p : Program α) (f : α → Program β) (d : Disk) :
    (p >>= f).run d = (f (p.run d).1).run (p.run d).2 := by
  show (p.bind f).run d = _
  induction p generalizing d with
  | done a => rfl
  | perform op next ih => exact ih _ _

end Program

/-- A program that may end in a fault. -/
abbrev Job (α : Type) := ExceptT Fault Program α

namespace Job

variable {α : Type}

/-- Ends in a fault. -/
def fail (f : Fault) : Job α := ExceptT.mk (.done (.error f))

/-- The outcome of something that needs no files. -/
def ofExcept (r : Except Fault α) : Job α := ExceptT.mk (.done r)

/-- One operation, whose failure is a fault that names a path. -/
def perform (path : String) (op : FileOp) : Job op.Reply :=
  ExceptT.mk (.perform op (fun r => .done (match r with
    | .ok a => .ok a
    | .error e => .error (.io path e.message))))

/-- One operation with its reply, whatever that is. -/
def attempt (op : FileOp) : Job (Except FileError op.Reply) :=
  ExceptT.mk (.perform op (fun r => .done (.ok r)))

end Job
end LedgerGate

import LedgerGate.Table

/-!
# A directory of files

The part of the disk that a ledger lives on: one directory, the base, with files and,
perhaps, further directories, whose names stand before a slash in the names of what is
in them. The base itself may be missing, and then nothing can be created in it.
A file has an identity apart from its name, so that a handle goes on writing to the same
file when the name is removed or given to another file. Operations take the one name
under which something is kept; `Disk.place` finds it for a path.
-/

namespace LedgerGate

/-- Why a file operation fails. -/
inductive FileError where
  | notFound
  | alreadyExists
  | isDirectory
  | notDirectory
  | directoryNotEmpty
  | busy
  | invalidPath
  | nameTooLong
  | fileTooLarge
deriving DecidableEq, Repr

/-- The wording of a failed file operation. -/
def FileError.message : FileError → String
  | notFound => "No such file or directory"
  | alreadyExists => "File exists"
  | isDirectory => "Is a directory"
  | notDirectory => "Not a directory"
  | directoryNotEmpty => "Directory not empty"
  | busy => "Device or resource busy"
  | invalidPath => "Invalid argument"
  | nameTooLong => "File name too long"
  | fileTooLarge => "File too large"

/-- What a name in a directory stands for. -/
inductive Node where
  | file (id : Nat) (content : List UInt8)
  | directory
deriving DecidableEq, Repr

/-- A directory. Files created later have larger identities. -/
structure Disk where
  nodes : Table Node
  nextId : Nat
  /-- Whether the base is there. -/
  hasBase : Bool
deriving DecidableEq

namespace Disk

/-- The empty directory. -/
def empty : Disk := ⟨Table.empty, 0, true⟩

instance : Inhabited Disk := ⟨empty⟩

/-- Whether a name is that of something in the base itself. -/
def isDirect (name : String) : Bool := !name.toList.contains '/'

/-- The names of what is in the base itself, in order. -/
def names (d : Disk) : List String := d.nodes.keys.filter isDirect

/-- Fails if the base is missing. -/
def checkBase (d : Disk) : Except FileError Unit :=
  if d.hasBase then .ok () else .error .notFound

/-- The names of what is in the base itself, in order, if it is there. -/
def list (d : Disk) : Except FileError (List String) :=
  if d.hasBase then .ok d.names else .error .notFound

/-- Whether a name is in use. -/
def isThere (d : Disk) (name : String) : Bool := d.nodes.contains name

/-- The content of a file. -/
def read (d : Disk) (name : String) : Except FileError (List UInt8) :=
  match d.nodes.get? name with
  | none => .error .notFound
  | some .directory => .error .isDirectory
  | some (.file _ content) => .ok content

/-- The content of a file, if the name is one's. -/
def content? (d : Disk) (name : String) : Option (List UInt8) := (d.read name).toOption

/-- Puts a new, empty file under a name; the answer is its identity. -/
def newFile (d : Disk) (name : String) : Except FileError (Nat × Disk) :=
  if d.hasBase then
    .ok (d.nextId,
      { d with nodes := d.nodes.insert name (.file d.nextId []), nextId := d.nextId + 1 })
  else .error .notFound

/-- Creates a file under a name that is not in use; the answer is its identity. -/
def createNew (d : Disk) (name : String) : Except FileError (Nat × Disk) :=
  if d.isThere name then .error .alreadyExists else d.newFile name

/-- Empties a file or creates one; the answer is its identity. -/
def create (d : Disk) (name : String) : Except FileError (Nat × Disk) :=
  match d.nodes.get? name with
  | none => d.newFile name
  | some .directory => .error .isDirectory
  | some (.file id _) => .ok (id, { d with nodes := d.nodes.insert name (.file id []) })

/-- The identity and the length of a file. -/
def openFile (d : Disk) (name : String) : Except FileError (Nat × Nat) :=
  match d.nodes.get? name with
  | none => .error .notFound
  | some .directory => .error .isDirectory
  | some (.file id content) => .ok (id, content.length)

/-- A node with bytes added, if it is the file of an identity. -/
def appendNode (id : Nat) (bytes : List UInt8) : Node → Node
  | .file i content => if i = id then .file i (content ++ bytes) else .file i content
  | .directory => .directory

/-- Adds bytes at the end of the file of an identity. A file without a name is beyond
reach, and what is added to it is lost. -/
def append (d : Disk) (id : Nat) (bytes : List UInt8) : Disk :=
  { d with nodes := d.nodes.map (appendNode id bytes) }

/-- Gives a file's name up for another one, in place of what that stood for. -/
def rename (d : Disk) (source target : String) : Except FileError Disk :=
  match d.nodes.get? source, d.nodes.get? target with
  | none, _ => .error .notFound
  | some (.file _ _), some .directory => .error .isDirectory
  | some .directory, some (.file _ _) => .error .notDirectory
  | some n, _ => .ok { d with nodes := (d.nodes.erase source).insert target n }

/-- Bytes cut, or filled up with zeros, to a length. -/
def resize (length : Nat) (bytes : List UInt8) : List UInt8 :=
  bytes.take length ++ List.replicate (length - bytes.length) 0

/-- The largest length of a file: sixteen tebibytes less one block. -/
def maxFileLength : Nat := 17592186040320

/-- Cuts a file, or fills it up with zeros, to a length. Only a file that grows can become
too large. -/
def setLength (d : Disk) (name : String) (length : Nat) : Except FileError Disk :=
  match d.nodes.get? name with
  | none => .error .notFound
  | some .directory => .error .isDirectory
  | some (.file id content) =>
    if content.length < length ∧ maxFileLength < length then .error .fileTooLarge
    else .ok { d with nodes := d.nodes.insert name (.file id (resize length content)) }

/-- Removes a file's name. -/
def remove (d : Disk) (name : String) : Except FileError Disk :=
  match d.nodes.get? name with
  | none => .error .notFound
  | some .directory => .error .isDirectory
  | some (.file _ _) => .ok { d with nodes := d.nodes.erase name }

/-- Creates a directory under a name that is not in use. -/
def makeDirectory (d : Disk) (name : String) : Except FileError Disk :=
  if d.isThere name then .error .alreadyExists
  else if d.hasBase then .ok { d with nodes := d.nodes.insert name .directory }
  else .error .notFound

/-- Whether there is something in the directory of a name. -/
def isOccupied (d : Disk) (name : String) : Bool :=
  d.nodes.keys.any (fun k => (name.toList ++ ['/']).isPrefixOf k.toList)

/-- Removes an empty directory. -/
def removeDirectory (d : Disk) (name : String) : Except FileError Disk :=
  match d.nodes.get? name with
  | none => .error .notFound
  | some (.file _ _) => .error .notDirectory
  | some .directory =>
    if d.isOccupied name then .error .directoryNotEmpty
    else .ok { d with nodes := d.nodes.erase name }

/-- Creates the base, which must be missing. -/
def makeBase (d : Disk) : Except FileError Disk :=
  if d.hasBase then .error .alreadyExists else .ok { d with hasBase := true }

/-- Removes the base, which must be empty. -/
def removeBase (d : Disk) : Except FileError Disk :=
  if !d.hasBase then .error .notFound
  else if d.names.isEmpty then .ok { d with hasBase := false }
  else .error .directoryNotEmpty

/-- Puts bytes into a file, in place of what it holds. -/
def write (d : Disk) (name : String) (bytes : List UInt8) : Except FileError Disk :=
  match d.create name with
  | .error e => .error e
  | .ok (id, d') => .ok (d'.append id bytes)

end Disk
end LedgerGate

import LedgerGate.Disk

/-!
# Paths

A path leads from the base, or from above everything if a slash comes first, through
names between slashes. An empty name and a dot lead nowhere, two dots lead back; every
other name on the way has to be a directory. `Disk.place` says what the end of a path
stands for, and the operations after it do to that what the operations on names do.
-/

namespace LedgerGate

/-- What the end of a path stands for. -/
inductive Place where
  /-- A name, in use or not, in a directory. After a slash only a directory may have it. -/
  | name (name : String) (beforeSlash : Bool)
  /-- The base, to which a path without names leads. -/
  | base
  /-- The directory above everything. -/
  | root
  /-- The directory in which a dot stands. -/
  | dot
  /-- The directory to which two dots lead back. -/
  | dots
deriving DecidableEq, Repr

namespace Path

/-- Whether a path leads from above everything. -/
def isAbsolute (path : String) : Bool := path.toList.head? == some '/'

/-- The path as it is shown, for a path in a directory. -/
def within (dir path : String) : String := if isAbsolute path then path else dir ++ "/" ++ path

/-- The texts between the slashes of a path. -/
def parts : List Char → List (List Char)
  | [] => [[]]
  | c :: r =>
    if c = '/' then [] :: parts r
    else
      match parts r with
      | [] => [[c]]
      | p :: ps => (c :: p) :: ps

/-- The names of a path. -/
def names (cs : List Char) : List String := ((parts cs).filter (· ≠ [])).map String.ofList

/-- Whether a path ends with a slash. -/
def endsWithSlash (cs : List Char) : Bool := cs.getLast? == some '/'

/-- The name under which something is kept, from the names that lead to it, the last one
first. -/
def joined (names : List String) : String := "/".intercalate names.reverse

/-- The longest name, in bytes. -/
def maxName : Nat := 255

/-- The longest path, in bytes. -/
def maxLength : Nat := 4095

end Path

namespace Disk

/-- Fails if there is no directory under the name to which names lead, the last one first. -/
def checkDirectory (d : Disk) (names : List String) : Except FileError Unit :=
  match d.nodes.get? (Path.joined names) with
  | none => .error .notFound
  | some (.file _ _) => .error .notDirectory
  | some .directory => .ok ()

/-- The names that lead to the directory above, the last one first. Above the base they are
two dots each; an empty name stands for what is above everything. -/
def above : List String → List String
  | [] => [".."]
  | name :: r => if name = ".." then ".." :: name :: r else if name = "" then [""] else r

/-- Goes one name further. -/
def enter (d : Disk) (names : List String) (name : String) : Except FileError (List String) :=
  if name = "." then .ok names
  else if name = ".." then .ok (above names)
  else if Path.maxName < name.utf8ByteSize then .error .nameTooLong
  else
    match d.checkDirectory (name :: names) with
    | .ok () => .ok (name :: names)
    | .error e => .error e

/-- What the last name of a path stands for. -/
def last (beforeSlash : Bool) (names : List String) (name : String) : Except FileError Place :=
  if name = "." then .ok .dot
  else if name = ".." then .ok .dots
  else if Path.maxName < name.utf8ByteSize then .error .nameTooLong
  else .ok (.name (Path.joined (name :: names)) beforeSlash)

/-- Goes through a name and those after it, but not the last one, and says what that
stands for. -/
def walk (d : Disk) (beforeSlash : Bool) (done : List String) (name : String) :
    List String → Except FileError Place
  | [] => last beforeSlash done name
  | next :: r =>
    match d.enter done name with
    | .ok done' => d.walk beforeSlash done' next r
    | .error e => .error e

/-- What the end of a path stands for. -/
def place (d : Disk) (path : String) : Except FileError Place :=
  let cs := path.toList
  let absolute := Path.isAbsolute path
  if cs.contains '\x00' then .error .invalidPath
  else if Path.maxLength < path.utf8ByteSize then .error .nameTooLong
  else
    match Path.names cs with
    | [] => .ok (if absolute then .root else .base)
    | name :: r =>
      if absolute then d.walk (Path.endsWithSlash cs) [""] name r
      else if d.hasBase then d.walk (Path.endsWithSlash cs) [] name r
      else .error .notFound

/-- The name of the file that a path leads to. -/
def fileAt (d : Disk) (path : String) : Except FileError String :=
  match d.place path with
  | .error e => .error e
  | .ok (.name name beforeSlash) =>
    match d.nodes.get? name with
    | none => .error .notFound
    | some .directory => .error .isDirectory
    | some (.file _ _) => if beforeSlash then .error .notDirectory else .ok name
  | .ok .base => if d.hasBase then .error .isDirectory else .error .notFound
  | .ok _ => .error .isDirectory

/-- The name of the file that a path leads to or that may be created there. -/
def newFileAt (d : Disk) (path : String) : Except FileError String :=
  match d.place path with
  | .error e => .error e
  | .ok (.name name false) => .ok name
  | .ok _ => .error .isDirectory

/-- The content of the file that a path leads to. -/
def readAt (d : Disk) (path : String) : Except FileError (List UInt8) :=
  (d.fileAt path).bind d.read

/-- Puts bytes into the file of a path, in place of what it holds. -/
def writeAt (d : Disk) (path : String) (bytes : List UInt8) : Except FileError Disk :=
  (d.newFileAt path).bind (fun name => d.write name bytes)

/-- Adds bytes at the end of the file that a path leads to. -/
def appendAt (d : Disk) (path : String) (bytes : List UInt8) : Except FileError Disk :=
  ((d.fileAt path).bind d.openFile).map (fun f => d.append f.1 bytes)

/-- Cuts a number of bytes off the file that a path leads to. -/
def chopAt (d : Disk) (path : String) (count : Nat) : Except FileError Disk :=
  (d.fileAt path).bind (fun name =>
    (d.openFile name).bind (fun f => d.setLength name (f.2 - count)))

/-- Opens the file of a path to append to it, and creates it if it is not there; the answer
is its identity. -/
def openOrCreateAt (d : Disk) (path : String) : Except FileError (Nat × Disk) :=
  (d.newFileAt path).bind (fun name =>
    if d.isThere name then (d.openFile name).map (fun f => (f.1, d)) else d.newFile name)

/-- Removes the file that a path leads to. -/
def removeAt (d : Disk) (path : String) : Except FileError Disk := (d.fileAt path).bind d.remove

/-- Creates the directory of a path. -/
def makeDirectoryAt (d : Disk) (path : String) : Except FileError Disk :=
  match d.place path with
  | .error e => .error e
  | .ok (.name name _) => d.makeDirectory name
  | .ok .base => d.makeBase
  | .ok _ => .error .alreadyExists

/-- Removes the empty directory of a path. -/
def removeDirectoryAt (d : Disk) (path : String) : Except FileError Disk :=
  match d.place path with
  | .error e => .error e
  | .ok (.name name _) => d.removeDirectory name
  | .ok .base => d.removeBase
  | .ok .root => .error .busy
  | .ok .dot => .error .invalidPath
  | .ok .dots => .error .directoryNotEmpty

end Disk
end LedgerGate

import LedgerGate.Log.Replay
import LedgerGate.Program

/-!
# The log on the disk

A log file that is open for appending. Every append waits until it is on the disk. The
log is replaced as a whole by writing a second file and renaming it.
-/

namespace LedgerGate.Log

/-- The path of a name in a directory. -/
def pathOf (dir name : String) : String := dir ++ "/" ++ name

/-- A log that is open for appending. -/
structure File where
  dir : String
  name : String
  id : Nat
  length : Nat
deriving DecidableEq, Repr

namespace File

/-- The path of a log. -/
def path (f : File) : String := pathOf f.dir f.name

/-- Creates an empty log. -/
def create (dir name : String) : Job File := do
  let path := pathOf dir name
  let id ← Job.perform path (.createNew name)
  Job.perform path (.syncFile id)
  return ⟨dir, name, id, 0⟩

/-- Opens a log that is there. -/
def openLog (dir name : String) : Job File := do
  let r ← Job.perform (pathOf dir name) (.openFile name)
  return ⟨dir, name, r.1, r.2⟩

/-- Opens a log, and creates it first if it is not there. -/
def openOrCreate (dir name : String) : Job File := do
  let there : Bool ← Job.perform (pathOf dir name) (.isThere name)
  if there then openLog dir name
  else
    let f ← create dir name
    Job.perform dir .syncNames
    return f

/-- Appends bytes and waits until they are on the disk. -/
def appendBytes (f : File) (bytes : List UInt8) : Job File := do
  Job.perform f.path (.append f.id bytes)
  Job.perform f.path (.syncFile f.id)
  return { f with length := f.length + bytes.length }

/-- Appends an entry. -/
def append (f : File) (e : Entry) : Job File := f.appendBytes e.bytes

/-- Appends entries all at once. -/
def appendAll (f : File) (es : List Entry) : Job File := f.appendBytes (es.flatMap Entry.bytes)

/-- Whether a part of a name begins behind these characters, of which the last comes first. -/
def startsPart : List Char → Bool
  | [] => true
  | c :: _ => c == '/'

/-- A name without its extension, which is what follows the last point of its last part. A point
with which that part begins is none of an extension. -/
def withoutExtension (name : String) : String :=
  match name.toList.reverse.dropWhile (fun c => c ≠ '.' && c ≠ '/') with
  | '.' :: r => if startsPart r then name else String.ofList r.reverse
  | _ => name

/-- The name of the file that is written before it takes the place of a log. -/
def replacementName (name : String) : String := withoutExtension name ++ ".log.compact.tmp"

/-- Writes bytes to a file and waits until they are on the disk. -/
def writeWhole (dir name : String) (bytes : List UInt8) : Job Unit := do
  let path := pathOf dir name
  let id ← Job.perform path (.create name)
  Job.perform path (.append id bytes)
  Job.perform path (.syncFile id)

/-- Replaces all entries of a log. -/
def replaceAll (f : File) (es : List Entry) : Job File := do
  let temp := replacementName f.name
  writeWhole f.dir temp (es.flatMap Entry.bytes)
  Job.perform f.path (.rename temp f.name)
  Job.perform f.dir .syncNames
  openLog f.dir f.name

end File

/-- Reads the log of a name. -/
def replayFile (dir name : String) : Job Replay := do
  let path := pathOf dir name
  let bytes ← Job.perform path (.read name)
  match replay bytes with
  | .ok r => return r
  | .error c => Job.fail (c.fault path)

/-- Cuts the log of a name to a length. -/
def truncate (dir name : String) (length : Nat) : Job Unit :=
  Job.perform (pathOf dir name) (.setLength name length)

end LedgerGate.Log

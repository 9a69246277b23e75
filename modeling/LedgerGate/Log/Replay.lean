import LedgerGate.Fault
import LedgerGate.Log.Entry

/-!
# Replay

Reads the bytes of a log. Every complete line has to hold an entry. What follows the last
line feed was never acknowledged: it is a torn tail, to be cut off, unless it is longer
than any line could be.
-/

namespace LedgerGate.Log

/-- The largest number of bytes in a line without its line feed. -/
def maxLine : Nat := 65536

/-- An entry with the place where it was read. -/
structure Record where
  offset : Nat
  raw : String
  entry : Entry
deriving DecidableEq, Repr

/-- What a log holds. -/
structure Replay where
  records : List Record
  /-- Where the torn tail begins, if there is one. -/
  tornAt : Option Nat
deriving DecidableEq, Repr

/-- Where and why a log cannot be read. -/
structure Corruption where
  offset : Nat
  raw : String
  reason : String
deriving DecidableEq, Repr

/-- The fault of a log that cannot be read. -/
def Corruption.fault (c : Corruption) (path : String) : Fault :=
  .logCorrupt path c.offset c.reason c.raw

/-- Lines that were complete, and the bytes of one that is not yet, both in reverse. -/
abbrev Splitting := List (List UInt8) × List UInt8

/-- Takes one more byte. -/
def splitStep (s : Splitting) (b : UInt8) : Splitting :=
  if b = 10 then (s.2.reverse :: s.1, []) else (s.1, b :: s.2)

/-- The complete lines of bytes, without their line feeds, and the rest. -/
def splitLines (bytes : List UInt8) : List (List UInt8) × List UInt8 :=
  let s := bytes.foldl splitStep ([], [])
  (s.1.reverse, s.2.reverse)

/-- The report of a line that is too long. Only its beginning is shown. -/
def tooLong (offset : Nat) (line : List UInt8) : Corruption :=
  ⟨offset, Text.Utf8.lossy (line.take 128), "record exceeds " ++ toString maxLine ++ " bytes"⟩

/-- What is read of bytes at once: those up to and with the next line feed, but at most so many.
What was read before comes in reverse. The second part is what is left. -/
def readUpTo (before : List UInt8) : Nat → List UInt8 → List UInt8 × List UInt8
  | 0, rest => (before.reverse, rest)
  | _ + 1, [] => (before.reverse, [])
  | n + 1, b :: r => if b = 10 then ((b :: before).reverse, r) else readUpTo (b :: before) n r

theorem length_readUpTo (before : List UInt8) (n : Nat) (bytes : List UInt8) :
    (readUpTo before n bytes).1.length + (readUpTo before n bytes).2.length =
      before.length + bytes.length := by
  fun_induction readUpTo before n bytes with
  | case1 before rest => simp
  | case2 before => simp
  | case3 before n r => simp; omega
  | case4 before n b r hb ih => rw [ih]; simp; omega

/-- What one read takes of the bytes of a log. It is just long enough to tell a line that is too
long from one that is not. -/
def readChunk (bytes : List UInt8) : List UInt8 × List UInt8 := readUpTo [] (maxLine + 1) bytes

theorem length_readChunk (bytes : List UInt8) :
    (readChunk bytes).1.length + (readChunk bytes).2.length = bytes.length := by
  rw [readChunk, length_readUpTo, List.length_nil, Nat.zero_add]

/-- The record of a complete line, which comes with its line feed. -/
def readRecord (offset : Nat) (chunk : List UInt8) : Except Corruption Record :=
  match Text.Utf8.decode? chunk.dropLast with
  | none => .error ⟨offset, Text.Utf8.lossy chunk, "not valid UTF-8"⟩
  | some raw =>
    match decodeLine raw with
    | .error e => .error ⟨offset, Text.Utf8.lossy chunk, e.message⟩
    | .ok entry => .ok ⟨offset, raw, entry⟩

/-- Reads the bytes of a log from an offset on, behind records that come in reverse. -/
def replayFrom (offset : Nat) (records : List Record) (bytes : List UInt8) :
    Except Corruption Replay :=
  let read := readChunk bytes
  if _hend : read.1 = [] then .ok ⟨records.reverse, none⟩
  else if read.1.getLast? = some 10 then
    match readRecord offset read.1 with
    | .error c => .error c
    | .ok record => replayFrom (offset + read.1.length) (record :: records) read.2
  -- Only what follows the last line feed may be torn; a bad line before it is corruption.
  else if maxLine < read.1.length then .error (tooLong offset read.1)
  else .ok ⟨records.reverse, some offset⟩
  termination_by bytes.length
  decreasing_by
    have hlength := length_readChunk bytes
    have hpos : 0 < (readChunk bytes).1.length := List.length_pos_iff.mpr _hend
    omega

/-- Reads the bytes of a log. -/
def replay (bytes : List UInt8) : Except Corruption Replay := replayFrom 0 [] bytes

end LedgerGate.Log

import LedgerGate.Power
import LedgerGate.Text.Hex
import LedgerGate.Text.Utf8

/-!
# SHA-256

The digest of a list of bytes. The message is padded to a whole number of
sixteen-word blocks, and each block is mixed into eight words of state.
-/

namespace LedgerGate.Sha256

/-- Rotation of a word to the right. -/
def rotate (x n : UInt32) : UInt32 := (x >>> n) ||| (x <<< (32 - n))

/-- The constants of the sixty-four rounds. -/
def roundConstants : List UInt32 := [
  0x428a2f98, 0x71374491, 0xb5c0fbcf, 0xe9b5dba5, 0x3956c25b, 0x59f111f1, 0x923f82a4, 0xab1c5ed5,
  0xd807aa98, 0x12835b01, 0x243185be, 0x550c7dc3, 0x72be5d74, 0x80deb1fe, 0x9bdc06a7, 0xc19bf174,
  0xe49b69c1, 0xefbe4786, 0x0fc19dc6, 0x240ca1cc, 0x2de92c6f, 0x4a7484aa, 0x5cb0a9dc, 0x76f988da,
  0x983e5152, 0xa831c66d, 0xb00327c8, 0xbf597fc7, 0xc6e00bf3, 0xd5a79147, 0x06ca6351, 0x14292967,
  0x27b70a85, 0x2e1b2138, 0x4d2c6dfc, 0x53380d13, 0x650a7354, 0x766a0abb, 0x81c2c92e, 0x92722c85,
  0xa2bfe8a1, 0xa81a664b, 0xc24b8b70, 0xc76c51a3, 0xd192e819, 0xd6990624, 0xf40e3585, 0x106aa070,
  0x19a4c116, 0x1e376c08, 0x2748774c, 0x34b0bcb5, 0x391c0cb3, 0x4ed8aa4a, 0x5b9cca4f, 0x682e6ff3,
  0x748f82ee, 0x78a5636f, 0x84c87814, 0x8cc70208, 0x90befffa, 0xa4506ceb, 0xbef9a3f7, 0xc67178f2]

/-- The eight words of state. -/
structure State where
  a : UInt32
  b : UInt32
  c : UInt32
  d : UInt32
  e : UInt32
  f : UInt32
  g : UInt32
  h : UInt32

/-- The state before the first block. -/
def start : State :=
  ⟨0x6a09e667, 0xbb67ae85, 0x3c6ef372, 0xa54ff53a, 0x510e527f, 0x9b05688c, 0x1f83d9ab, 0x5be0cd19⟩

/-- One more word of the schedule, from those before it. -/
def extendSchedule (w : Array UInt32) : Array UInt32 :=
  let n := w.size
  let x := w.getD (n - 15) 0
  let y := w.getD (n - 2) 0
  let s0 := rotate x 7 ^^^ rotate x 18 ^^^ (x >>> 3)
  let s1 := rotate y 17 ^^^ rotate y 19 ^^^ (y >>> 10)
  w.push (w.getD (n - 16) 0 + s0 + w.getD (n - 7) 0 + s1)

/-- The sixty-four words that the rounds of a block use. -/
def schedule (block : Array UInt32) : Array UInt32 :=
  (List.range 48).foldl (fun w _ => extendSchedule w) block

/-- One round. -/
def mix (s : State) (k w : UInt32) : State :=
  let s1 := rotate s.e 6 ^^^ rotate s.e 11 ^^^ rotate s.e 25
  let choice := (s.e &&& s.f) ^^^ ((~~~ s.e) &&& s.g)
  let t1 := s.h + s1 + choice + k + w
  let s0 := rotate s.a 2 ^^^ rotate s.a 13 ^^^ rotate s.a 22
  let majority := (s.a &&& s.b) ^^^ (s.a &&& s.c) ^^^ (s.b &&& s.c)
  ⟨t1 + (s0 + majority), s.a, s.b, s.c, s.d + t1, s.e, s.f, s.g⟩

/-- The state after one more block. -/
def compress (s : State) (block : Array UInt32) : State :=
  let r := (roundConstants.zip (schedule block).toList).foldl (fun t kw => mix t kw.1 kw.2) s
  ⟨s.a + r.a, s.b + r.b, s.c + r.c, s.d + r.d, s.e + r.e, s.f + r.f, s.g + r.g, s.h + r.h⟩

/-- The bytes of a number, most significant first, in the given count. -/
def bigEndian (count n : Nat) : List UInt8 :=
  (List.range count).map (fun i => UInt8.ofNat (n / twoTo (8 * (count - 1 - i))))

/-- What follows the message: a one bit, zeros, and the length in bits. -/
def padding (length : Nat) : List UInt8 :=
  0x80 :: List.replicate ((119 - length % 64) % 64) 0 ++ bigEndian 8 (8 * length)

/-- Takes one more byte: words fill up from bytes and blocks from words. -/
def absorb : State × Array UInt32 × List UInt8 → UInt8 → State × Array UInt32 × List UInt8
  | (s, block, [z, y, x]), b =>
    let word := x.toUInt32 <<< 24 ||| y.toUInt32 <<< 16 ||| z.toUInt32 <<< 8 ||| b.toUInt32
    let block := block.push word
    if block.size = 16 then (compress s block, #[], []) else (s, block, [])
  | (s, block, word), b => (s, block, b :: word)

/-- The bytes of the final state. -/
def State.bytes (s : State) : List UInt8 :=
  [s.a, s.b, s.c, s.d, s.e, s.f, s.g, s.h].flatMap (fun w => bigEndian 4 w.toNat)

/-- The digest of a message, of thirty-two bytes. -/
def digest (message : List UInt8) : List UInt8 :=
  ((message ++ padding message.length).foldl absorb (start, #[], [])).1.bytes

/-- The digest of a message in hexadecimal digits. -/
def hexDigest (message : List UInt8) : String :=
  String.ofList (Text.Hex.encode (digest message))

/-- The digest of the UTF-8 bytes of a text, in hexadecimal digits. -/
def textDigest (s : String) : String := hexDigest (Text.Utf8.encode s)

end LedgerGate.Sha256

import LedgerGate.Text.Hex

/-!
# Bytes of a text

Texts are stored as UTF-8. `decode?` reads bytes strictly; `pieces` reads any
bytes, and marks each longest piece that starts like a character and does not
finish one; `lossy` puts a replacement character for each of these.
-/

namespace LedgerGate.Text.Utf8

/-- The UTF-8 bytes of a text. -/
def encode (s : String) : List UInt8 := s.toUTF8.data.toList

/-- The text of well-formed UTF-8 bytes. -/
def decode? (bytes : List UInt8) : Option String := String.fromUTF8? ⟨bytes.toArray⟩

/-- A character that is being read: how many bytes are missing, which values the
next of them may take, and the bits collected so far. -/
structure Partial where
  missing : Nat
  least : Nat
  most : Nat
  bits : Nat

/-- What a byte begins: a whole character, the first byte of a longer one, or nothing. -/
inductive Lead where
  | whole (c : Char)
  | part (p : Partial)
  | stray

/-- The role of a byte at the start of a character. The bounds on the second byte
exclude overlong forms, surrogates and values past the last code point. -/
def lead (b : Nat) : Lead :=
  if b < 0x80 then .whole (Char.ofNat b)
  else if 0xc2 ≤ b ∧ b ≤ 0xdf then .part ⟨1, 0x80, 0xbf, b - 0xc0⟩
  else if b = 0xe0 then .part ⟨2, 0xa0, 0xbf, 0⟩
  else if b = 0xed then .part ⟨2, 0x80, 0x9f, 0xd⟩
  else if 0xe1 ≤ b ∧ b ≤ 0xef then .part ⟨2, 0x80, 0xbf, b - 0xe0⟩
  else if b = 0xf0 then .part ⟨3, 0x90, 0xbf, 0⟩
  else if 0xf1 ≤ b ∧ b ≤ 0xf3 then .part ⟨3, 0x80, 0xbf, b - 0xf0⟩
  else if b = 0xf4 then .part ⟨3, 0x80, 0x8f, 4⟩
  else .stray

/-- Reads a byte at the start of a character. -/
def start (b : Nat) (done : List (Option Char)) : Option Partial × List (Option Char) :=
  match lead b with
  | .whole c => (none, some c :: done)
  | .part p => (some p, done)
  | .stray => (none, none :: done)

/-- Reads one more byte. An unfinished character that the byte does not continue is no
character, and the byte starts afresh. -/
def next (b : Nat) : Option Partial × List (Option Char) → Option Partial × List (Option Char)
  | (none, done) => start b done
  | (some p, done) =>
    if p.least ≤ b ∧ b ≤ p.most then
      let bits := p.bits * 64 + (b - 0x80)
      if p.missing = 1 then (none, some (Char.ofNat bits) :: done)
      else (some ⟨p.missing - 1, 0x80, 0xbf, bits⟩, done)
    else start b (none :: done)

/-- The pieces of arbitrary bytes: the characters in them, and `none` for each longest
piece that is no character. -/
def pieces (bytes : List UInt8) : List (Option Char) :=
  match bytes.foldl (fun s b => next b.toNat s) (none, []) with
  | (none, done) => done.reverse
  | (some _, done) => (none :: done).reverse

/-- The character that stands for bytes that are no text. -/
def replacement : Char := Char.ofNat 0xfffd

/-- The text of arbitrary bytes. -/
def lossy (bytes : List UInt8) : String :=
  String.ofList ((pieces bytes).map (fun p => p.getD replacement))

end LedgerGate.Text.Utf8

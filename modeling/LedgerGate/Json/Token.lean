import LedgerGate.Json.Numeral
import LedgerGate.Text.Utf8

/-!
# Tokens of data texts

A data text is a sequence of brackets, separators, strings and words, with blanks
between them. `Json.tokensOf?` reads the text one character at a time; where it stands
inside a token is its `Mode`. A stored text may hold bytes that are no characters, and
these may stand inside a string, which has no text then.
-/

namespace LedgerGate.Json

/-- A token. The content of a string is `none` when it holds bytes that are no
characters, or when its escapes leave half of a surrogate pair alone. -/
inductive Token where
  | openArray
  | closeArray
  | openObject
  | closeObject
  | comma
  | colon
  | text (content : Option String)
  | scalar (value : Json)

/-- Where the reader stands. Characters of an unfinished token are kept in reverse;
those of a string as numbers, since an escape may name half of a surrogate pair, and
`noCharacter` stands for bytes that are none. -/
inductive Mode where
  | between
  | bare (word : List Char)
  | string (units : List Nat)
  | escape (units : List Nat)
  | hex (units : List Nat) (missing : Nat) (value : Nat)

/-- The unit of bytes that are no character. It is beyond the last code point. -/
def noCharacter : Nat := 0x110000

/-- The characters of a string's units, with surrogate pairs put together, in reverse
after those already done. -/
def pairUpAfter (done : List Char) : List Nat → Option (List Char)
  | [] => some done
  | [unit] => if unit.isValidChar then some (Char.ofNat unit :: done) else none
  | high :: low :: r =>
    if high.isValidChar then pairUpAfter (Char.ofNat high :: done) (low :: r)
    else if 0xd800 ≤ high ∧ high < 0xdc00 ∧ 0xdc00 ≤ low ∧ low < 0xe000 then
      pairUpAfter (Char.ofNat (0x10000 + (high - 0xd800) * 0x400 + (low - 0xdc00)) :: done) r
    else none

/-- The characters of a string's units, with surrogate pairs put together. -/
def pairUp (units : List Nat) : Option (List Char) :=
  (pairUpAfter [] units).map List.reverse

/-- The token of a finished string. -/
def textToken (units : List Nat) : Token := .text ((pairUp units.reverse).map String.ofList)

/-- The token of a finished word. -/
def wordToken? (word : List Char) : Option Token :=
  if word = ['n', 'u', 'l', 'l'] then some (.scalar .null)
  else if word = ['t', 'r', 'u', 'e'] then some (.scalar (.bool true))
  else if word = ['f', 'a', 'l', 's', 'e'] then some (.scalar (.bool false))
  else (numeral? word).map (fun n => .scalar n.value)

/-- Whether a character belongs to a word. -/
def isWordChar (c : Char) : Bool := c.isAlphanum || c == '+' || c == '-' || c == '.'

/-- The unit that a short escape stands for. -/
def shortEscape? : Char → Option Nat
  | '"' => some 0x22
  | '\\' => some 0x5c
  | '/' => some 0x2f
  | 'b' => some 0x8
  | 'f' => some 0xc
  | 'n' => some 0xa
  | 'r' => some 0xd
  | 't' => some 0x9
  | _ => none

/-- Reads a character between tokens. -/
def betweenStep (c : Char) (done : List Token) : Option (Mode × List Token) :=
  match c with
  | ' ' | '\n' | '\t' | '\r' => some (.between, done)
  | '[' => some (.between, .openArray :: done)
  | ']' => some (.between, .closeArray :: done)
  | '\x7b' => some (.between, .openObject :: done)
  | '\x7d' => some (.between, .closeObject :: done)
  | ',' => some (.between, .comma :: done)
  | ':' => some (.between, .colon :: done)
  | '"' => some (.string [], done)
  | c => if isWordChar c then some (.bare [c], done) else none

/-- Reads a character. -/
def tokenStep (mode : Mode) (done : List Token) (c : Char) : Option (Mode × List Token) :=
  match mode with
  | .between => betweenStep c done
  | .bare word =>
    if isWordChar c then some (.bare (c :: word), done)
    else
      match wordToken? word.reverse with
      | some t => betweenStep c (t :: done)
      | none => none
  | .string units =>
    if c = '"' then some (.between, textToken units :: done)
    else if c = '\\' then some (.escape units, done)
    else if c.toNat < 0x20 then none
    else some (.string (c.toNat :: units), done)
  | .escape units =>
    if c = 'u' then some (.hex units 4 0, done)
    else (shortEscape? c).map (fun u => (.string (u :: units), done))
  | .hex units missing value =>
    match Text.Hex.digitValue? c with
    | none => none
    | some d =>
      if missing ≤ 1 then some (.string ((value * 16 + d) :: units), done)
      else some (.hex units (missing - 1) (value * 16 + d), done)

/-- Reads bytes that are no character. -/
def strayStep (mode : Mode) (done : List Token) : Option (Mode × List Token) :=
  match mode with
  | .string units => some (.string (noCharacter :: units), done)
  | _ => none

/-- Ends the text. -/
def tokenEnd (mode : Mode) (done : List Token) : Option (List Token) :=
  match mode with
  | .between => some done.reverse
  | .bare word => (wordToken? word.reverse).map (fun t => (t :: done).reverse)
  | _ => none

/-- Reads one piece of a text. -/
def pieceStep (mode : Mode) (done : List Token) : Option Char → Option (Mode × List Token)
  | some c => tokenStep mode done c
  | none => strayStep mode done

/-- Reads the rest of a text. -/
def tokensFrom (mode : Mode) (done : List Token) : List (Option Char) → Option (List Token)
  | [] => tokenEnd mode done
  | p :: r =>
    match pieceStep mode done p with
    | some (mode', done') => tokensFrom mode' done' r
    | none => none

/-- The tokens of the pieces of a text. -/
def tokensOf? (pieces : List (Option Char)) : Option (List Token) :=
  tokensFrom .between [] pieces

end LedgerGate.Json

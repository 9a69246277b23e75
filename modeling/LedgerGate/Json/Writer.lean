import LedgerGate.Json.Basic
import LedgerGate.Text.Utf8

/-!
# Text of data values

`Json.chars` writes a value without any blanks, `Json.prettyChars` with one field or
item a line. The canonical text of a value is the text without blanks of its sorted
form, so it depends on the value only and not on the order of its fields.
-/

namespace LedgerGate.Json

/-- One character inside a string. -/
def escapedChar (c : Char) : List Char :=
  match c with
  | '"' => ['\\', '"']
  | '\\' => ['\\', '\\']
  | '\x08' => ['\\', 'b']
  | '\x0c' => ['\\', 'f']
  | '\n' => ['\\', 'n']
  | '\r' => ['\\', 'r']
  | '\t' => ['\\', 't']
  | c => if c.toNat < 0x20 then '\\' :: 'u' :: Text.Hex.fourDigits c.toNat else [c]

/-- A string with its quotes. -/
def stringChars (s : String) : List Char := '"' :: s.toList.flatMap escapedChar ++ ['"']

/-- Texts with a separator between them. -/
def joined (separator : List Char) : List (List Char) → List Char
  | [] => []
  | [cs] => cs
  | cs :: r => cs ++ separator ++ joined separator r

/-- The text of a value that has no parts. -/
def leafChars : Json → List Char
  | null => ['n', 'u', 'l', 'l']
  | bool true => ['t', 'r', 'u', 'e']
  | bool false => ['f', 'a', 'l', 's', 'e']
  | integer n => (toString n).toList
  | float x => (Binary64.spelledChars x).getD ['n', 'u', 'l', 'l']
  | string s => stringChars s
  | _ => ['n', 'u', 'l', 'l']

mutual

/-- The text of a value without blanks. -/
def chars : Json → List Char
  | array items => '[' :: joined [','] (itemChars items) ++ [']']
  | object fields => '\x7b' :: joined [','] (fieldChars fields) ++ ['\x7d']
  | v => leafChars v

/-- The texts of items. -/
def itemChars : List Json → List (List Char)
  | [] => []
  | v :: r => chars v :: itemChars r

/-- The texts of fields. -/
def fieldChars : List (String × Json) → List (List Char)
  | [] => []
  | (k, v) :: r => (stringChars k ++ ':' :: chars v) :: fieldChars r

end

/-- The text of a value without blanks. -/
def text (v : Json) : String := String.ofList v.chars

/-- A line break and the blanks of a depth. -/
def newLine (depth : Nat) : List Char := '\n' :: List.replicate (2 * depth) ' '

/-- Parts on lines of their own between two brackets. -/
def block (opening closing : Char) (depth : Nat) (parts : List (List Char)) : List Char :=
  if parts.isEmpty then [opening, closing]
  else
    opening :: newLine (depth + 1) ++ joined (',' :: newLine (depth + 1)) parts ++
      newLine depth ++ [closing]

mutual

/-- The text of a value with one part a line, at a depth. -/
def prettyChars (depth : Nat) : Json → List Char
  | array items => block '[' ']' depth (prettyItems (depth + 1) items)
  | object fields => block '\x7b' '\x7d' depth (prettyFields (depth + 1) fields)
  | v => leafChars v

/-- The texts of items at a depth. -/
def prettyItems (depth : Nat) : List Json → List (List Char)
  | [] => []
  | v :: r => prettyChars depth v :: prettyItems depth r

/-- The texts of fields at a depth. -/
def prettyFields (depth : Nat) : List (String × Json) → List (List Char)
  | [] => []
  | (k, v) :: r => (stringChars k ++ ':' :: ' ' :: prettyChars depth v) :: prettyFields depth r

end

/-- The text of a value with one part a line. -/
def pretty (v : Json) : String := String.ofList (prettyChars 0 v)

/-- The text that stands for a value when it is hashed. -/
def canonical (v : Json) : String := v.sorted.text

end LedgerGate.Json

import LedgerGate.Text.Hex
import LedgerGate.Text.Unprintable

/-!
# Quoted text

A text between double quotes in which every character that would not show is
written as an escape: a short one where there is a customary letter, otherwise
the code point in braces. Diagnostics quote foreign bytes this way.
-/

namespace LedgerGate.Text

/-- One character inside a quoted text. -/
def quotedChar (c : Char) : List Char :=
  match c with
  | '\t' => ['\\', 't']
  | '\n' => ['\\', 'n']
  | '\r' => ['\\', 'r']
  | '\x00' => ['\\', '0']
  | '"' => ['\\', '"']
  | '\\' => ['\\', '\\']
  | c =>
    if isUnprintable c then ['\\', 'u', '\x7b'] ++ Hex.ofNat c.toNat ++ ['\x7d'] else [c]

/-- A text between double quotes, with what would not show escaped. -/
def quoted (s : String) : String :=
  String.ofList ('"' :: s.toList.flatMap quotedChar ++ ['"'])

end LedgerGate.Text

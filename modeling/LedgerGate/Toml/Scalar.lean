import LedgerGate.Binary64.Reader
import LedgerGate.Json.Basic
import LedgerGate.Text.Hex
import LedgerGate.Toml.Moment

/-!
# Scalars of settings texts

The strings, numbers, moments and words that a settings text may give as values. Every
reader takes what it understands from the front of the text and returns the rest.
-/

namespace LedgerGate.Toml

/-- A reader's result and the rest of the text. -/
abbrev Parsed (α : Type) := Option (α × List Char)

/-- Whether a character may not stand in a string as it is. -/
def isControl (c : Char) : Bool := (c.toNat < 0x20 && c ≠ '\t') || c.toNat == 0x7f

/-- A character by its code point, if it is one. -/
def charOf? (n : Nat) : Option Char := if n.isValidChar then some (Char.ofNat n) else none

/-- The number that hexadecimal digits spell. -/
def hexValue? (cs : List Char) : Option Nat :=
  cs.foldl (fun n c =>
    match n, Text.Hex.digitValue? c with
    | some n, some d => some (16 * n + d)
    | _, _ => none) (some 0)

/-- The character of a short escape. -/
def escape? : Char → Option Char
  | 'b' => some '\x08'
  | 't' => some '\t'
  | 'n' => some '\n'
  | 'f' => some '\x0c'
  | 'r' => some '\r'
  | '"' => some '"'
  | '\\' => some '\\'
  | _ => none

/-- The character of a code point in hexadecimal digits. -/
def codePoint? (digits : List Char) : Option Char := (hexValue? digits).bind charOf?

/-- Whether the line ends here, blanks apart. -/
def atLineEnd (cs : List Char) : Bool :=
  match cs.dropWhile (fun c => c = ' ' || c = '\t') with
  | '\n' :: _ => true
  | '\r' :: '\n' :: _ => true
  | _ => false

/-- Reads the rest of a string with escapes; what was read is kept in reverse. With `lines`
it may have several lines and ends at three quotes. `trimming` passes over blanks and line
ends: it starts at a line end after a backslash. -/
def escapedRest (lines trimming : Bool) (done : List Char) : List Char → Parsed String
  | [] => none
  | '"' :: r =>
    if !lines then some (String.ofList done.reverse, r)
    else
      match r with
      -- Up to two quotes may stand before the three that end the string.
      | '"' :: '"' :: '"' :: '"' :: r' => some (String.ofList ('"' :: '"' :: done).reverse, r')
      | '"' :: '"' :: '"' :: r' => some (String.ofList ('"' :: done).reverse, r')
      | '"' :: '"' :: r' => some (String.ofList done.reverse, r')
      | _ => escapedRest lines false ('"' :: done) r
  | '\\' :: 'u' :: a :: b :: c :: d :: r =>
    match codePoint? [a, b, c, d] with
    | some x => escapedRest lines false (x :: done) r
    | none => none
  | '\\' :: 'U' :: a :: b :: c :: d :: e :: f :: g :: h :: r =>
    match codePoint? [a, b, c, d, e, f, g, h] with
    | some x => escapedRest lines false (x :: done) r
    | none => none
  | '\\' :: c :: r =>
    if lines && atLineEnd (c :: r) then escapedRest lines true done (c :: r)
    else
      match escape? c with
      | some x => escapedRest lines false (x :: done) r
      | none => none
  | '\r' :: '\n' :: r =>
    if trimming then escapedRest lines true done r
    else if lines then escapedRest lines false ('\n' :: done) r
    else none
  | c :: r =>
    if trimming && (c = ' ' || c = '\t' || c = '\n') then escapedRest lines true done r
    else if isControl c && !(lines && c = '\n') then none
    else escapedRest lines false (c :: done) r

/-- Reads the rest of a string without escapes; what was read is kept in reverse. With
`lines` it may have several lines and ends at three quotes. -/
def literalRest (lines : Bool) (done : List Char) : List Char → Parsed String
  | [] => none
  | '\'' :: r =>
    if !lines then some (String.ofList done.reverse, r)
    else
      match r with
      | '\'' :: '\'' :: '\'' :: '\'' :: r' =>
        some (String.ofList ('\'' :: '\'' :: done).reverse, r')
      | '\'' :: '\'' :: '\'' :: r' => some (String.ofList ('\'' :: done).reverse, r')
      | '\'' :: '\'' :: r' => some (String.ofList done.reverse, r')
      | _ => literalRest lines ('\'' :: done) r
  | '\r' :: '\n' :: r => if lines then literalRest lines ('\n' :: done) r else none
  | c :: r =>
    if isControl c && !(lines && c = '\n') then none else literalRest lines (c :: done) r

/-- Reads a string on one line. -/
def lineString : List Char → Parsed String
  | '"' :: r => escapedRest false false [] r
  | '\'' :: r => literalRest false [] r
  | _ => none

/-- The text without the line end that it begins with, if it does. -/
def skipLineEnd : List Char → List Char
  | '\n' :: r => r
  | '\r' :: '\n' :: r => r
  | r => r

/-- Reads a string. A line end right after three quotes does not belong to it. -/
def string : List Char → Parsed String
  | '"' :: '"' :: '"' :: r => escapedRest true false [] (skipLineEnd r)
  | '\'' :: '\'' :: '\'' :: r => literalRest true [] (skipLineEnd r)
  | cs => lineString cs

/-! ## Numbers -/

/-- Digits of a kind with single underscores between them, without the underscores. -/
def spacedDigits? (isDigit : Char → Bool) : List Char → Option (List Char)
  | [] => none
  | [c] => if isDigit c then some [c] else none
  | c :: '_' :: r => if isDigit c then (spacedDigits? isDigit r).map (c :: ·) else none
  | c :: r => if isDigit c then (spacedDigits? isDigit r).map (c :: ·) else none

/-- Decimal digits with single underscores between them, without the underscores. -/
def digits? (cs : List Char) : Option (List Char) := spacedDigits? Char.isDigit cs

/-- Digits of a whole number, which has no leading zero. -/
def wholeDigits? (cs : List Char) : Option (List Char) :=
  match digits? cs with
  | some ('0' :: _ :: _) => none
  | r => r

/-- A sign and the rest. -/
def splitSign : List Char → Bool × List Char
  | '-' :: r => (true, r)
  | '+' :: r => (false, r)
  | r => (false, r)

/-- A whole number that fits 64 bits with a sign. -/
def integer? (cs : List Char) : Option Json :=
  let (negative, body) := splitSign cs
  match wholeDigits? body with
  | none => none
  | some ds =>
    let n : Int := Nat.ofDigitChars 10 ds 0
    let n := if negative then -n else n
    if -9223372036854775808 ≤ n ∧ n < 9223372036854775808 then some (.integer n) else none

/-- Whether a character is a digit in a base of at most sixteen. -/
def isDigitIn (base : Nat) (c : Char) : Bool :=
  match Text.Hex.digitValue? c with
  | some d => d < base
  | none => false

/-- A whole number in another base, after its mark. -/
def based? (base : Nat) (cs : List Char) : Option Json :=
  match spacedDigits? (isDigitIn base) cs with
  | none => none
  | some ds =>
    let n := (ds.filterMap Text.Hex.digitValue?).foldl (fun n d => base * n + d) 0
    if n < 9223372036854775808 then some (.integer n) else none

/-- The digits and sign of an exponent. -/
def exponent? (cs : List Char) : Option (Bool × List Char) :=
  let (negative, body) := splitSign cs
  (digits? body).map (fun ds => (negative, ds))

/-- A number with a point or an exponent. One that is too large is refused; one that is
too far below zero stands for minus infinity. -/
def float? (cs : List Char) : Option Json :=
  let (negative, body) := splitSign cs
  let sign (x : Float) : Json := .float (if negative then -x else x)
  if body = ['i', 'n', 'f'] then some (sign Binary64.infinity)
  else if body = ['n', 'a', 'n'] then some (sign Binary64.notANumber)
  else
    let isMark (c : Char) : Bool := c == 'e' || c == 'E'
    let front := body.takeWhile (fun c => !isMark c)
    let back := body.dropWhile (fun c => !isMark c)
    let whole := front.takeWhile (· ≠ '.')
    let fraction := match front.dropWhile (· ≠ '.') with
      | [] => some []
      | _ :: r => digits? r
    let power := match back with
      | [] => some (false, [])
      | _ :: r => exponent? r
    match wholeDigits? whole, fraction, power with
    | some w, some f, some (n, e) =>
      let x := Binary64.Numeral.value ⟨w, f, n, e⟩
      if (f.isEmpty && back.isEmpty) || (!negative && x.isInf) then none else some (sign x)
    | _, _, _ => none

/-- Whether a character belongs to a number, a moment or a word. -/
def isBare (c : Char) : Bool :=
  c.isAlphanum || c == '_' || c == '+' || c == '-' || c == '.' || c == ':'

/-- The data value of every moment: one that no setting can take. -/
def moment : Json := .object [("moment", .null)]

/-- The value of a number, a moment or a word. -/
def bareValue? (cs : List Char) : Option Json :=
  match cs with
  | ['t', 'r', 'u', 'e'] => some (.bool true)
  | ['f', 'a', 'l', 's', 'e'] => some (.bool false)
  | '0' :: 'x' :: r => based? 16 r
  | '0' :: 'o' :: r => based? 8 r
  | '0' :: 'b' :: r => based? 2 r
  | cs =>
    if isMoment cs then some moment
    else
      match integer? cs with
      | some v => some v
      | none => float? cs

/-- The text after the time of day that follows a date and a blank, if there is one. -/
def skipTime (cs : List Char) : List Char :=
  match cs with
  | ' ' :: r => if isTimeOfDate (r.takeWhile isBare) then r.dropWhile isBare else cs
  | cs => cs

/-- Reads a number, a moment or a word. -/
def bare (cs : List Char) : Parsed Json :=
  let word := cs.takeWhile isBare
  let rest := cs.dropWhile isBare
  (bareValue? word).map (fun v => (v, if isDate word then skipTime rest else rest))

/-- Reads what every value but a list or table is. -/
def scalar (cs : List Char) : Parsed Json :=
  match cs with
  | '"' :: _ => (string cs).map (fun p => (.string p.1, p.2))
  | '\'' :: _ => (string cs).map (fun p => (.string p.1, p.2))
  | cs => bare cs

end LedgerGate.Toml

import LedgerGate.Toml.Scalar
import LedgerGate.Toml.Tree

/-!
# Settings texts

A settings text is a list of lines `key = value`, put into tables by headers in brackets.
Keys may be quoted and may have several parts. The number of parts and the depth of lists
and tables inside each other are limited.
-/

namespace LedgerGate.Toml

/-- The text after blanks on the same line. -/
def skipBlanks (cs : List Char) : List Char := cs.dropWhile (fun c => c = ' ' || c = '\t')

/-- The text after a comment, if one begins here. -/
def skipComment : List Char → List Char
  | '#' :: r => r.dropWhile (fun c => !isControl c)
  | cs => cs

/-- The text after the end of a line, which may also be the end of the text. -/
def lineEnd : List Char → Option (List Char)
  | [] => some []
  | '\n' :: r => some r
  | '\r' :: '\n' :: r => some r
  | _ => none

/-- The text after the rest of a line on which nothing but a comment may follow. -/
def endLine (cs : List Char) : Option (List Char) := lineEnd (skipComment (skipBlanks cs))

/-- The text from where something stands that is not a blank, a line end or a comment.
`comment` says whether the text begins inside a comment. -/
def contentFrom (comment : Bool) : List Char → Option (List Char)
  | [] => some []
  | '\n' :: r => contentFrom false r
  | '\r' :: '\n' :: r => contentFrom false r
  | c :: r =>
    if comment then if isControl c then none else contentFrom true r
    else if c = ' ' || c = '\t' then contentFrom false r
    else if c = '#' then contentFrom true r
    else some (c :: r)

/-- The text from where something stands that is not a blank, a line end or a comment. -/
def toContent (cs : List Char) : Option (List Char) := contentFrom false cs

/-! ## Keys -/

/-- Whether a character belongs to a key without quotes. -/
def isKeyChar (c : Char) : Bool := c.isAlphanum || c == '_' || c == '-'

/-- Reads one part of a key. -/
def keyPart (cs : List Char) : Parsed String :=
  match cs with
  | '"' :: _ => lineString cs
  | '\'' :: _ => lineString cs
  | cs =>
    let k := cs.takeWhile isKeyChar
    if k.isEmpty then none else some (String.ofList k, cs.dropWhile isKeyChar)

/-- The largest number of parts of a key, and of lists and tables inside each other. -/
def maxDepth : Nat := 79

/-- Reads a key of at most a number of parts. -/
def keyWithin : Nat → List Char → Parsed (List String)
  | 0, _ => none
  | parts + 1, cs =>
    match keyPart (skipBlanks cs) with
    | none => none
    | some (k, r) =>
      match skipBlanks r with
      | '.' :: r' =>
        match keyWithin parts r' with
        | some (ks, r'') => some (k :: ks, r'')
        | none => none
      | r' => some ([k], r')

/-- Reads a key. -/
def key (cs : List Char) : Parsed (List String) := keyWithin maxDepth cs

/-- Reads a key and the sign after it, and goes to the value. -/
def keyAndSign (cs : List Char) : Parsed (List String) :=
  match key cs with
  | some (ks, '=' :: r) => some (ks, skipBlanks r)
  | _ => none

/-! ## Values -/

/-- Reads the rest of a list whose items a reader reads; `fuel` bounds their number. -/
def items (read : List Char → Parsed Json) : Nat → List Json → List Char → Parsed Json
  | 0, _, _ => none
  | fuel + 1, done, cs =>
    match toContent cs with
    | none => none
    | some (']' :: r) => some (.array done.reverse, r)
    | some r =>
      match read r with
      | none => none
      | some (v, r') =>
        match toContent r' with
        | some (',' :: r'') => items read fuel (v :: done) r''
        | some (']' :: r'') => some (.array (v :: done).reverse, r'')
        | _ => none

/-- Reads the rest of a table that stands on one line; `fuel` bounds the number of its
fields. -/
def fields (read : List Char → Parsed Json) : Nat → Entries → List Char → Parsed Json
  | 0, _, _ => none
  | fuel + 1, done, cs =>
    match keyAndSign cs with
    | none => none
    | some (ks, r) =>
      match read r with
      | none => none
      | some (v, r') =>
        match setKey v ks done, skipBlanks r' with
        | some es, ',' :: r'' => fields read fuel es r''
        | some es, '\x7d' :: r'' => some (.object (entriesJson es), r'')
        | _, _ => none

/-- Reads a table that stands on one line, after its bracket. -/
def inlineTable (read : List Char → Parsed Json) (fuel : Nat) (cs : List Char) : Parsed Json :=
  match skipBlanks cs with
  | '\x7d' :: r => some (.object [], r)
  | r => fields read fuel [] r

/-- Reads a value with at most a number of lists and tables inside each other; `fuel`
bounds the number of parts of each. -/
def valueWithin (fuel : Nat) : Nat → List Char → Parsed Json
  | depth, '[' :: r =>
    match depth with
    | 0 => none
    | depth' + 1 => items (valueWithin fuel depth') fuel [] r
  | depth, '\x7b' :: r =>
    match depth with
    | 0 => none
    | depth' + 1 => inlineTable (valueWithin fuel depth') fuel r
  | _, cs => scalar cs

/-! ## Lines -/

/-- A line that is not empty. -/
inductive Line where
  /-- The header of a table. -/
  | table (path : List String)
  /-- The header of one more element of a list of tables. -/
  | element (path : List String)
  | setting (keys : List String) (v : Json)

/-- Reads a header after its brackets, up to the brackets that close it. -/
def header (closing : List Char) (line : List String → Line) (cs : List Char) : Parsed Line :=
  match key cs with
  | some (path, r) => if closing.isPrefixOf r then some (line path, r.drop closing.length) else none
  | none => none

/-- Reads a line up to the comment that may end it; `fuel` bounds the number of parts of
each list and table in it. -/
def line (fuel : Nat) (cs : List Char) : Parsed Line :=
  match cs with
  | '[' :: '[' :: r => header [']', ']'] .element r
  | '[' :: r => header [']'] .table r
  | cs =>
    match keyAndSign cs with
    | none => none
    | some (ks, r) => (valueWithin fuel maxDepth r).map (fun p => (.setting ks p.1, p.2))

/-- Reads the lines of a text; `count` bounds their number, `fuel` that of the parts of
each list and table. -/
def lines (fuel : Nat) : Nat → List Char → Option (List Line)
  | 0, _ => none
  | count + 1, cs =>
    match toContent cs with
    | none => none
    | some [] => some []
    | some r =>
      match line fuel r with
      | none => none
      | some (l, r') => ((endLine r').bind (lines fuel count)).map (l :: ·)

/-- Fills tables by lines. `path` is that of the last header. -/
def fill (path : List String) (es : Entries) : List Line → Option Entries
  | [] => some es
  | .table p :: r => (openAt headedTable p es).bind (fun es' => fill p es' r)
  | .element p :: r => (openAt headedElement p es).bind (fun es' => fill p es' r)
  | .setting ks v :: r => (setIn ks v path es).bind (fun es' => fill path es' r)

/-- The text without the mark of its byte order, which may stand in front. -/
def skipMark (cs : List Char) : List Char :=
  if cs.head? = some (Char.ofNat 0xfeff) then cs.drop 1 else cs

/-- The lines of a settings text. -/
def linesOf? (s : String) : Option (List Line) :=
  let cs := skipMark s.toList
  -- Every line and every part takes a character.
  let fuel := cs.length + 1
  lines fuel fuel cs

/-- The data value of a settings text. -/
def read? (s : String) : Option Json :=
  ((linesOf? s).bind (fill [] [])).map (fun es => .object (entriesJson es))

end LedgerGate.Toml

import LedgerGate.Json.Token

/-!
# Reading data texts

The tokens of a text are put together into a value with a list of the brackets that
are still open. A container that is nested deeper than a limit is read over but has no
value; the usual limit is 127.
-/

namespace LedgerGate.Json

/-- An open bracket with what has been read inside it, in reverse. A name is `none`
when it has no text. -/
inductive Frame where
  | array (items : List Json)
  | object (fields : List (Option String × Json)) (name : Option (Option String))

/-- What may come next. -/
inductive Expects where
  | value
  | itemOrClose
  | nameOrClose
  | name
  | colon
  | separator
  | nothing

/-- A value that is being put together. -/
structure Builder where
  frames : List Frame
  expects : Expects
  result : Option Json

/-- The builder before the first token. -/
def Builder.start : Builder := ⟨[], .value, none⟩

/-- The usual limit of nesting. -/
def maxDepth : Nat := 127

/-- Adds a finished value at the innermost open bracket. -/
def addValue (frames : List Frame) (v : Json) : Option Builder :=
  match frames with
  | [] => some ⟨[], .nothing, some v⟩
  | .array items :: r => some ⟨.array (v :: items) :: r, .separator, none⟩
  | .object fields (some k) :: r => some ⟨.object ((k, v) :: fields) none :: r, .separator, none⟩
  | .object _ none :: _ => none

/-- The value of a closed array, at a depth. -/
def closedArray (limit depth : Nat) (items : List Json) : Json :=
  if limit < depth then .broken else .array items.reverse

/-- The fields of an object all of whose names have a text. -/
def namedFields? (fields : List (Option String × Json)) : Option (List (String × Json)) :=
  traverse (fun p : Option String × Json => p.1.map (fun k => (k, p.2))) fields

/-- The value of a closed object, at a depth. -/
def closedObject (limit depth : Nat) (fields : List (Option String × Json)) : Json :=
  if limit < depth then .broken
  else
    match namedFields? fields.reverse with
    | some named => .object named
    | none => .broken

/-- The value of a string token. -/
def ofContent : Option String → Json
  | some s => .string s
  | none => .broken

/-- Adds a token where a value is expected. -/
def valueToken (frames : List Frame) : Token → Option Builder
  | .openArray => some ⟨.array [] :: frames, .itemOrClose, none⟩
  | .openObject => some ⟨.object [] none :: frames, .nameOrClose, none⟩
  | .text s => addValue frames (ofContent s)
  | .scalar v => addValue frames v
  | _ => none

/-- Closes the innermost bracket, which must be square. -/
def closeArray (limit : Nat) : List Frame → Option Builder
  | .array items :: r => addValue r (closedArray limit (r.length + 1) items)
  | _ => none

/-- Closes the innermost bracket, which must be curly. -/
def closeObject (limit : Nat) : List Frame → Option Builder
  | .object fields none :: r => addValue r (closedObject limit (r.length + 1) fields)
  | _ => none

/-- Takes the name of a field. -/
def nameToken : List Frame → Token → Option Builder
  | .object fields none :: r, .text k => some ⟨.object fields (some k) :: r, .colon, none⟩
  | _, _ => none

/-- Adds a token. -/
def Builder.step (limit : Nat) (b : Builder) (t : Token) : Option Builder :=
  match b.expects, t with
  | .value, t => valueToken b.frames t
  | .itemOrClose, .closeArray => closeArray limit b.frames
  -- A bracket that was just opened may be closed; after a comma it may not.
  | .itemOrClose, t => valueToken b.frames t
  | .nameOrClose, .closeObject => closeObject limit b.frames
  | .nameOrClose, t => nameToken b.frames t
  | .name, t => nameToken b.frames t
  | .colon, .colon => some ⟨b.frames, .value, none⟩
  | .separator, .closeArray => closeArray limit b.frames
  | .separator, .closeObject => closeObject limit b.frames
  | .separator, .comma =>
    match b.frames with
    | .array _ :: _ => some ⟨b.frames, .value, none⟩
    | .object .. :: _ => some ⟨b.frames, .name, none⟩
    | [] => none
  | _, _ => none

/-- Adds tokens in order. -/
def Builder.run (limit : Nat) (b : Builder) : List Token → Option Builder
  | [] => some b
  | t :: r =>
    match b.step limit t with
    | some b' => b'.run limit r
    | none => none

/-- The value of a whole sequence of tokens. -/
def ofTokens? (limit : Nat) (ts : List Token) : Option Json :=
  match Builder.start.run limit ts with
  | some b => b.result
  | none => none

/-- The value of the pieces of a grammatical text, with a limit of nesting; parts without
a value are marked in it. -/
def readPieces? (limit : Nat) (pieces : List (Option Char)) : Option Json :=
  match tokensOf? pieces with
  | some ts => ofTokens? limit ts
  | none => none

/-- The value of a grammatical text, with a limit of nesting. -/
def readWithin? (limit : Nat) (cs : List Char) : Option Json := readPieces? limit (cs.map some)

/-- The value of a grammatical text with the usual limit of nesting. -/
def read? (cs : List Char) : Option Json := readWithin? maxDepth cs

/-- The value of stored bytes with the usual limit of nesting. -/
def ofBytes? (bytes : List UInt8) : Option Json := readPieces? maxDepth (Text.Utf8.pieces bytes)

/-- A value all of whose parts have one, as a map of maps. -/
def whole? (v : Json) : Option Json := if v.isWhole then some v.sorted else none

/-- The value of a text all of whose parts have one, as a map of maps. -/
def value? (cs : List Char) : Option Json := (read? cs).bind whole?

end LedgerGate.Json

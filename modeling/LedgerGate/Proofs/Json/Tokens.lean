import LedgerGate.Json.Reader
import LedgerGate.Json.Writer
import LedgerGate.Proofs.Text.Utf8
import LedgerGate.Proofs.Text.Digits
import Mathlib.Data.List.TakeWhile

/-!
# Tokens of written values

What is written for a value, with or without line breaks, is read as the same tokens. A value
is plain when it has no floating-point part and its whole numbers fit 64 bits; all that the
ledger stores is plain.
-/

namespace LedgerGate.Json

/-! ## Plain values and their tokens -/

mutual

/-- Whether a value consists of texts, truth values, 64-bit whole numbers and containers. -/
def IsPlain : Json → Prop
  | float _ | broken => False
  | integer n => -(twoTo 63 : Int) ≤ n ∧ n ≤ maxUInt64
  | array items => ItemsPlain items
  | object fields => FieldsPlain fields
  | _ => True

/-- Whether every item is plain. -/
def ItemsPlain : List Json → Prop
  | [] => True
  | v :: r => IsPlain v ∧ ItemsPlain r

/-- Whether the value of every field is plain. -/
def FieldsPlain : List (String × Json) → Prop
  | [] => True
  | (_, v) :: r => IsPlain v ∧ FieldsPlain r

end

/-- Token sequences with a comma between them. -/
def separated : List (List Token) → List Token
  | [] => []
  | [ts] => ts
  | ts :: r => ts ++ .comma :: separated r

mutual

/-- The tokens of a value. -/
def tokens : Json → List Token
  | array items => .openArray :: separated (itemTokens items) ++ [.closeArray]
  | object fields => .openObject :: separated (fieldTokens fields) ++ [.closeObject]
  | string s => [.text (some s)]
  | v => [.scalar v]

/-- The tokens of each item. -/
def itemTokens : List Json → List (List Token)
  | [] => []
  | v :: r => tokens v :: itemTokens r

/-- The tokens of each field. -/
def fieldTokens : List (String × Json) → List (List Token)
  | [] => []
  | (k, v) :: r => (.text (some k) :: .colon :: tokens v) :: fieldTokens r

end

/-! ## Reading one piece after another -/

/-- Whether pieces begin with something that ends a word. -/
def EndsWord (rest : List (Option Char)) : Prop :=
  rest = [] ∨ ∃ c r, rest = some c :: r ∧ isWordChar c = false

/-- Whether characters are read as tokens, wherever a word may end after them. -/
def Reads (cs : List Char) (ts : List Token) : Prop :=
  ∀ done rest, EndsWord rest →
    tokensFrom .between done (cs.map some ++ rest) = tokensFrom .between (ts.reverse ++ done) rest

theorem tokensFrom_some (mode : Mode) (done : List Token) (c : Char) (r : List (Option Char)) :
    tokensFrom mode done (some c :: r) =
      match tokenStep mode done c with
      | some (mode', done') => tokensFrom mode' done' r
      | none => none := rfl

/-- Whether characters are read as tokens, whatever follows them. -/
def Separates (cs : List Char) (ts : List Token) : Prop :=
  ∀ done rest,
    tokensFrom .between done (cs.map some ++ rest) = tokensFrom .between (ts.reverse ++ done) rest

theorem Separates.reads {cs : List Char} {ts : List Token} (h : Separates cs ts) : Reads cs ts :=
  fun done rest _ => h done rest

theorem Separates.nil : Separates [] [] := fun _ _ => rfl

theorem Separates.cons {c : Char} {us : List Token} {ds : List Char} (ts : List Token)
    (h : Separates ds us)
    (hc : ∀ done, betweenStep c done = some (.between, ts.reverse ++ done)) :
    Separates (c :: ds) (ts ++ us) := by
  intro done rest
  rw [List.map_cons, List.cons_append, tokensFrom_some]
  simp only [tokenStep, hc]
  rw [h _ rest]
  simp

theorem Separates.single {c : Char} {t : Token}
    (hc : ∀ done, betweenStep c done = some (.between, t :: done)) : Separates [c] [t] :=
  Separates.nil.cons [t] hc

theorem Separates.append {cs ds : List Char} {ts us : List Token} (h : Separates cs ts)
    (h' : Reads ds us) : Reads (cs ++ ds) (ts ++ us) := by
  intro done rest hr
  rw [List.map_append, List.append_assoc, h done _, h' _ rest hr]
  simp

theorem EndsWord.of_head {c : Char} (hc : isWordChar c = false) (ds : List Char)
    (rest : List (Option Char)) : EndsWord ((c :: ds).map some ++ rest) :=
  .inr ⟨c, ds.map some ++ rest, rfl, hc⟩

/-- What follows may be read on its own when it begins with something that ends a word. -/
theorem Reads.append {cs ds : List Char} {c : Char} {ts us : List Token} (h : Reads cs ts)
    (hc : isWordChar c = false) (h' : Reads (c :: ds) us) :
    Reads (cs ++ c :: ds) (ts ++ us) := by
  intro done rest hr
  rw [List.map_append, List.append_assoc, h done _ (.of_head hc ds rest), h' _ rest hr]
  simp

theorem separates_blanks (n : Nat) : Separates (List.replicate n ' ') [] := by
  induction n with
  | zero => exact Separates.nil
  | succ n ih => exact ih.cons [] (fun _ => rfl)

theorem separates_newLine (depth : Nat) : Separates (newLine depth) [] :=
  (separates_blanks _).cons [] (fun _ => rfl)

/-! ## Words -/

theorem betweenStep_word {c : Char} (hc : isWordChar c = true) (done : List Token) :
    betweenStep c done = some (.bare [c], done) := by
  unfold betweenStep
  split
  case h_12 => rw [if_pos hc]
  all_goals exact absurd hc (by decide)

theorem tokensFrom_bare {word cs : List Char} {t : Token} {done : List Token}
    {rest : List (Option Char)} (hr : EndsWord rest) (hcs : ∀ c ∈ cs, isWordChar c = true)
    (ht : wordToken? (word.reverse ++ cs) = some t) :
    tokensFrom (.bare word) done (cs.map some ++ rest) = tokensFrom .between (t :: done) rest := by
  induction cs generalizing word with
  | nil =>
    rw [List.append_nil] at ht
    rcases hr with rfl | ⟨c, r, rfl, hc⟩
    · simp [tokensFrom, tokenEnd, ht]
    · simp [tokensFrom, pieceStep, tokenStep, hc, ht]
  | cons c r ih =>
    rw [List.map_cons, List.cons_append, tokensFrom_some]
    simp only [tokenStep, hcs c (List.mem_cons_self ..), if_true]
    exact ih (fun d hd => hcs d (List.mem_cons_of_mem _ hd)) (by simpa using ht)

theorem reads_word {cs : List Char} {t : Token} (hne : cs ≠ [])
    (hcs : ∀ c ∈ cs, isWordChar c = true) (ht : wordToken? cs = some t) : Reads cs [t] := by
  intro done rest hr
  obtain ⟨c, r, rfl⟩ := List.exists_cons_of_ne_nil hne
  rw [List.map_cons, List.cons_append, tokensFrom_some]
  simp only [tokenStep, betweenStep_word (hcs c (List.mem_cons_self ..))]
  rw [tokensFrom_bare hr (fun d hd => hcs d (List.mem_cons_of_mem _ hd)) (by simpa using ht)]
  simp

/-! ## Whole numbers -/

theorem isWordChar_of_isDigit {c : Char} (h : c.isDigit = true) : isWordChar c = true := by
  simp [isWordChar, Char.isAlphanum, h]

theorem takeWhile_digits {ds : List Char} (hd : ∀ c ∈ ds, c.isDigit = true) :
    ds.takeWhile Char.isDigit = ds ∧ ds.dropWhile Char.isDigit = [] :=
  ⟨List.takeWhile_eq_self_iff.mpr hd, List.dropWhile_eq_nil_iff.mpr hd⟩

section

variable {ds : List Char} (hne : ds ≠ []) (hd : ∀ c ∈ ds, c.isDigit = true)
  (hz : ¬ (1 < ds.length ∧ ds.head? = some '0'))

include hne hd hz

theorem numeral?_negative : numeral? ('-' :: ds) = some ⟨true, ds, none, none⟩ := by
  obtain ⟨htake, hdrop⟩ := takeWhile_digits hd
  simp only [numeral?, htake, hdrop]
  rw [if_neg (by rintro (h | h); exacts [hne (List.isEmpty_iff.mp h), hz h])]
  rfl

theorem numeral?_digits : numeral? ds = some ⟨false, ds, none, none⟩ := by
  obtain ⟨htake, hdrop⟩ := takeWhile_digits hd
  unfold numeral?
  split
  next negative body heq =>
    split at heq
    · exact absurd (hd '-' (List.mem_cons_self ..)) (by decide)
    · obtain ⟨rfl, rfl⟩ := Prod.mk.inj heq
      simp only [htake, hdrop]
      rw [if_neg (by rintro (h | h); exacts [hne (List.isEmpty_iff.mp h), hz h])]
      rfl

end

theorem toList_toString (n : Int) : (toString n).toList =
    if n < 0 then '-' :: Nat.toDigits 10 n.natAbs else Nat.toDigits 10 n.natAbs := by
  cases n with
  | ofNat m => simp [toString, Int.repr]
  | negSucc m => simp [toString, Int.repr]

theorem mem_toString {n : Int} {c : Char} (h : c ∈ (toString n).toList) :
    c = '-' ∨ c.isDigit = true := by
  have hd := List.all_eq_true.mp (Text.allDigits_toDigits n.natAbs)
  rw [toList_toString] at h
  split at h
  · exact (List.mem_cons.mp h).imp id (hd c)
  · exact .inr (hd c h)

/-- A whole number of 64 bits is read as that number. -/
theorem numeral_value {n : Int} (h : IsPlain (integer n)) :
    (numeral? (toString n).toList).map Numeral.value = some (integer n) := by
  have hd := List.all_eq_true.mp (Text.allDigits_toDigits n.natAbs)
  have hz := Text.no_leading_zero n.natAbs
  have hne : Nat.toDigits 10 n.natAbs ≠ [] := Nat.toDigits_ne_nil
  obtain ⟨hlo, hhi⟩ := h
  rw [toList_toString]
  split
  · next hn =>
    have h0 : n.natAbs ≠ 0 := by omega
    have h63 : n.natAbs ≤ twoTo 63 := by omega
    have hcast : -(n.natAbs : Int) = n := by omega
    rw [numeral?_negative hne hd hz]
    simp only [Option.map_some, Numeral.value, Nat.ofDigitChars_ten_toDigits, if_true,
      if_neg h0, if_pos h63, hcast]
  · next hn =>
    have h64 : n.natAbs ≤ maxUInt64 := by omega
    have hcast : (n.natAbs : Int) = n := by omega
    rw [numeral?_digits hne hd hz]
    simp only [Option.map_some, Numeral.value, Nat.ofDigitChars_ten_toDigits,
      Bool.false_eq_true, if_false, if_pos h64, hcast]

theorem reads_integer {n : Int} (h : IsPlain (integer n)) :
    Reads (toString n).toList [.scalar (integer n)] := by
  have hword : ∀ w : List Char, (∃ c ∈ w, c ≠ '-' ∧ c.isDigit = false) →
      (toString n).toList ≠ w := by
    rintro w ⟨c, hc, hc', hc''⟩ rfl
    rcases mem_toString hc with h | h
    · exact hc' h
    · rw [hc''] at h; exact absurd h (by decide)
  refine reads_word ?_ (fun c hc => ?_) ?_
  · rw [toList_toString]
    split
    · simp
    · exact Nat.toDigits_ne_nil
  · rcases mem_toString hc with rfl | h
    · decide
    · exact isWordChar_of_isDigit h
  · rw [wordToken?, if_neg (hword _ ⟨'n', by decide⟩), if_neg (hword _ ⟨'t', by decide⟩),
      if_neg (hword _ ⟨'f', by decide⟩)]
    simpa [Option.map_map, Function.comp_def] using
      congrArg (Option.map Token.scalar) (numeral_value h)

/-! ## Strings -/

/-- The escape of a control character by its number. -/
theorem tokensFrom_hexEscape {c : Char} (hc : c.toNat < 0x20) (units : List Nat)
    (done : List Token) (rest : List (Option Char)) :
    tokensFrom (.string units) done
        (('\\' :: 'u' :: Text.Hex.fourDigits c.toNat).map some ++ rest) =
      tokensFrom (.string (c.toNat :: units)) done rest := by
  have h0 : c.toNat / 4096 % 16 = 0 := by omega
  have h1 : c.toNat / 256 % 16 = 0 := by omega
  have hv : (c.toNat / 16 % 16) * 16 + c.toNat % 16 = c.toNat := by omega
  have hd : ∀ n, n < 16 → Text.Hex.digitValue? (Text.Hex.digit n) = some n :=
    fun n hn => Text.Hex.digitValue?_digit hn
  simp only [Text.Hex.fourDigits, h0, h1, List.map_cons, List.map_nil, List.cons_append,
    List.nil_append, tokensFrom_some, tokenStep]
  simp [hd 0 (by decide), hd (c.toNat / 16 % 16) (by omega), hd (c.toNat % 16) (by omega), hv]

/-- What is written for a character of a string is read as that character. -/
theorem tokensFrom_escapedChar (c : Char) (units : List Nat) (done : List Token)
    (rest : List (Option Char)) :
    tokensFrom (.string units) done ((escapedChar c).map some ++ rest) =
      tokensFrom (.string (c.toNat :: units)) done rest := by
  unfold escapedChar
  split
  case h_8 h1 h2 _ _ _ _ _ =>
    split
    · next hc => exact tokensFrom_hexEscape hc units done rest
    · next hc =>
      rw [List.map_cons, List.cons_append, tokensFrom_some]
      simp only [tokenStep, if_neg h1, if_neg h2, if_neg hc]
      rfl
  all_goals rfl

theorem tokensFrom_escaped (cs : List Char) (units : List Nat) (done : List Token)
    (rest : List (Option Char)) :
    tokensFrom (.string units) done ((cs.flatMap escapedChar).map some ++ rest) =
      tokensFrom (.string ((cs.map Char.toNat).reverse ++ units)) done rest := by
  induction cs generalizing units with
  | nil => rfl
  | cons c r ih =>
    rw [List.flatMap_cons, List.map_append, List.append_assoc, tokensFrom_escapedChar, ih]
    simp

theorem isValidChar_toNat (c : Char) : c.toNat.isValidChar := c.valid

/-- Characters are no halves of surrogate pairs. -/
theorem pairUpAfter_toNat (cs done : List Char) :
    pairUpAfter done (cs.map Char.toNat) = some (cs.reverse ++ done) := by
  induction cs generalizing done with
  | nil => rfl
  | cons c r ih =>
    have hc : Char.ofNat c.toNat = c := Char.ofNat_toNat c
    cases r with
    | nil => simp [pairUpAfter, isValidChar_toNat, hc]
    | cons d r =>
      rw [List.map_cons, List.map_cons, pairUpAfter, if_pos (isValidChar_toNat c), hc,
        ← List.map_cons, ih]
      simp

theorem textToken_toNat (s : String) :
    textToken (s.toList.map Char.toNat).reverse = .text (some s) := by
  simp [textToken, pairUp, pairUpAfter_toNat]

theorem reads_string (s : String) : Reads (stringChars s) [.text (some s)] := by
  intro done rest _
  have hopen : ∀ r, tokensFrom .between done (some '"' :: r) = tokensFrom (.string []) done r :=
    fun _ => rfl
  have hclose : ∀ units r, tokensFrom (.string units) done (some '"' :: r) =
      tokensFrom .between (textToken units :: done) r := fun _ _ => rfl
  simp only [stringChars, List.cons_append, List.map_cons, List.map_append, List.map_nil,
    List.append_assoc, List.nil_append]
  rw [hopen, tokensFrom_escaped, hclose, List.append_nil, textToken_toNat]
  rfl

/-! ## Values -/

theorem reads_leaf {v : Json} (h : IsPlain v) (ha : ∀ items, v ≠ array items)
    (ho : ∀ fields, v ≠ object fields) : Reads (leafChars v) (tokens v) := by
  cases v with
  | null => exact reads_word (by simp [leafChars]) (by simp [leafChars]; decide) rfl
  | bool b => cases b <;> exact reads_word (by simp [leafChars]) (by simp [leafChars]; decide) rfl
  | integer n => exact reads_integer h
  | string s => exact reads_string s
  | array items => exact absurd rfl (ha items)
  | object fields => exact absurd rfl (ho fields)
  | float x => exact h.elim
  | broken => exact h.elim

/-- Parts with a separator that is read as a comma. -/
theorem reads_joined {blanks : List Char} (hs : Separates blanks [])
    {parts : List (List Char)} {groups : List (List Token)}
    (h : List.Forall₂ Reads parts groups) :
    Reads (joined (',' :: blanks) parts) (separated groups) := by
  have hcomma : Separates (',' :: blanks) [.comma] := hs.cons [.comma] fun _ => rfl
  induction h with
  | nil => exact Separates.nil.reads
  | @cons cs ts parts groups hcs hrest ih =>
    cases hrest with
    | nil => exact hcs
    | cons hcs' hrest' =>
      have := hcs.append (by decide) (hcomma.append ih)
      simpa [joined, separated] using this

mutual

theorem reads_chars : ∀ v : Json, IsPlain v → Reads v.chars v.tokens
  | array items, h => by
    have := reads_joined Separates.nil (reads_itemChars items h)
    have := this.append rfl (Separates.single (c := ']') (t := .closeArray) fun _ => rfl).reads
    exact (Separates.single fun _ => rfl).append this
  | object fields, h => by
    have := reads_joined Separates.nil (reads_fieldChars fields h)
    have := this.append rfl (Separates.single (c := '\x7d') (t := .closeObject) fun _ => rfl).reads
    exact (Separates.single fun _ => rfl).append this
  | null, h => reads_leaf h nofun nofun
  | bool _, h => reads_leaf h nofun nofun
  | integer _, h => reads_leaf h nofun nofun
  | string _, h => reads_leaf h nofun nofun

theorem reads_itemChars : ∀ items : List Json, ItemsPlain items →
    List.Forall₂ Reads (itemChars items) (itemTokens items)
  | [], _ => .nil
  | v :: r, h => .cons (reads_chars v h.1) (reads_itemChars r h.2)

theorem reads_fieldChars : ∀ fields : List (String × Json), FieldsPlain fields →
    List.Forall₂ Reads (fieldChars fields) (fieldTokens fields)
  | [], _ => .nil
  | (k, v) :: r, h =>
    .cons ((reads_string k).append rfl
      ((Separates.single (t := .colon) fun _ => rfl).append (reads_chars v h.1)))
      (reads_fieldChars r h.2)

end

/-! ## Values with line breaks -/

theorem reads_block {opening closing : Char} {first last : Token} (depth : Nat)
    (ho : ∀ done, betweenStep opening done = some (.between, first :: done))
    (hc : ∀ done, betweenStep closing done = some (.between, last :: done))
    {parts : List (List Char)} {groups : List (List Token)}
    (h : List.Forall₂ Reads parts groups) :
    Reads (block opening closing depth parts) (first :: separated groups ++ [last]) := by
  have hopen : Separates [opening] [first] := Separates.single ho
  have hclose : Reads [closing] [last] := (Separates.single hc).reads
  have hparts := reads_joined (separates_newLine (depth + 1)) h
  have hend : Reads (newLine depth ++ [closing]) [last] :=
    (separates_newLine depth).append hclose
  cases h with
  | nil => exact hopen.append hclose
  | cons _ _ =>
    have := (separates_newLine (depth + 1)).append (hparts.append (by decide) hend)
    simpa [block, newLine] using hopen.append this

mutual

theorem reads_prettyChars : ∀ (depth : Nat) (v : Json), IsPlain v →
    Reads (prettyChars depth v) v.tokens
  | depth, array items, h =>
    reads_block depth (fun _ => rfl) (fun _ => rfl) (reads_prettyItems (depth + 1) items h)
  | depth, object fields, h =>
    reads_block depth (fun _ => rfl) (fun _ => rfl) (reads_prettyFields (depth + 1) fields h)
  | _, null, h => reads_leaf h nofun nofun
  | _, bool _, h => reads_leaf h nofun nofun
  | _, integer _, h => reads_leaf h nofun nofun
  | _, string _, h => reads_leaf h nofun nofun

theorem reads_prettyItems : ∀ (depth : Nat) (items : List Json), ItemsPlain items →
    List.Forall₂ Reads (prettyItems depth items) (itemTokens items)
  | _, [], _ => .nil
  | depth, v :: r, h => .cons (reads_prettyChars depth v h.1) (reads_prettyItems depth r h.2)

theorem reads_prettyFields : ∀ (depth : Nat) (fields : List (String × Json)),
    FieldsPlain fields → List.Forall₂ Reads (prettyFields depth fields) (fieldTokens fields)
  | _, [], _ => .nil
  | depth, (k, v) :: r, h =>
    have hcolon : Separates [':', ' '] [.colon] :=
      (separates_blanks 1).cons [.colon] fun _ => rfl
    .cons ((reads_string k).append rfl (hcolon.append (reads_prettyChars depth v h.1)))
      (reads_prettyFields depth r h.2)

end

theorem tokensOf?_of_reads {cs : List Char} {ts : List Token} (h : Reads cs ts) :
    tokensOf? (cs.map some) = some ts := by
  have := h [] [] (.inl rfl)
  rw [List.append_nil, List.append_nil] at this
  rw [tokensOf?, this]
  simp [tokensFrom, tokenEnd]

end LedgerGate.Json

import LedgerGate.Proofs.Json.Tokens

/-!
# Written values end by themselves

What is written for an exact value, one without floating-point parts, can be told from whatever
is written after it, as long as that begins with a comma or a closing bracket (`told_chars`). So
two exact values with one text are the same value (`IsExact.eq_of_chars_eq`): whole numbers may
be of any size here, and containers may be nested to any depth, since no reader is asked.
-/

namespace LedgerGate.Json

/-! ## Exact values -/

mutual

/-- Whether a value consists of texts, truth values, whole numbers and containers. -/
def IsExact : Json → Prop
  | float _ | broken => False
  | array items => ItemsExact items
  | object fields => FieldsExact fields
  | _ => True

/-- Whether every item is exact. -/
def ItemsExact : List Json → Prop
  | [] => True
  | v :: r => IsExact v ∧ ItemsExact r

/-- Whether the value of every field is exact. -/
def FieldsExact : List (String × Json) → Prop
  | [] => True
  | (_, v) :: r => IsExact v ∧ FieldsExact r

end

theorem itemsExact_iff {items : List Json} : ItemsExact items ↔ ∀ v ∈ items, IsExact v := by
  induction items with
  | nil => simp [ItemsExact]
  | cons v r ih => simp [ItemsExact, ih]

theorem fieldsExact_iff {fields : List (String × Json)} :
    FieldsExact fields ↔ ∀ p ∈ fields, IsExact p.2 := by
  induction fields with
  | nil => simp [FieldsExact]
  | cons p r ih => simp [FieldsExact, ih]

mutual

/-- Plain values have no floating-point parts, and bounds on whole numbers besides. -/
theorem IsPlain.isExact : ∀ {v : Json}, IsPlain v → IsExact v
  | .null, _ | .bool _, _ | .integer _, _ | .string _, _ => trivial
  | .array _, h => ItemsPlain.itemsExact h
  | .object _, h => FieldsPlain.fieldsExact h

theorem ItemsPlain.itemsExact : ∀ {items : List Json}, ItemsPlain items → ItemsExact items
  | [], _ => trivial
  | _ :: _, h => ⟨IsPlain.isExact h.1, ItemsPlain.itemsExact h.2⟩

theorem FieldsPlain.fieldsExact :
    ∀ {fields : List (String × Json)}, FieldsPlain fields → FieldsExact fields
  | [], _ => trivial
  | (_, _) :: _, h => ⟨IsPlain.isExact h.1, FieldsPlain.fieldsExact h.2⟩

end

/-! ## Texts that can be told from what follows -/

/-- Whether what follows a written value cannot belong to it. -/
def Delimits (rest : List Char) : Prop :=
  ∀ c ∈ rest.head?, c = ',' ∨ c = ']' ∨ c = '\x7d'

/-- Whether what is written for `a` is told from what follows and from what is written for
others. -/
def Told {α : Type} (write : α → List Char) (ok : α → Prop) (a : α) : Prop :=
  ∀ b rest rest', ok b → Delimits rest → Delimits rest' →
    write a ++ rest = write b ++ rest' → a = b ∧ rest = rest'

theorem Delimits.nil : Delimits [] := nofun

theorem Delimits.cons {c : Char} (h : c = ',' ∨ c = ']' ∨ c = '\x7d') (rest : List Char) :
    Delimits (c :: rest) := by
  intro d hd
  obtain rfl := Option.some.inj hd
  exact h

/-! ## Strings -/

/-- What a letter after a backslash stands for. -/
def unescaped : Char → Char
  | 'b' => '\x08'
  | 'f' => '\x0c'
  | 'n' => '\n'
  | 'r' => '\r'
  | 't' => '\t'
  | c => c

/-- A character is written as it is, as a backslash and a letter, or by its number. -/
theorem escapedChar_cases (c : Char) :
    (escapedChar c = [c] ∧ c ≠ '"' ∧ c ≠ '\\') ∨
    (∃ e, escapedChar c = ['\\', e] ∧ e ≠ 'u' ∧ unescaped e = c) ∨
    (escapedChar c = '\\' :: 'u' :: Text.Hex.fourDigits c.toNat ∧ c.toNat < 0x20) := by
  unfold escapedChar
  split
  case h_8 hquote hbackslash _ _ _ _ _ =>
    by_cases hc : c.toNat < 0x20
    · exact .inr (.inr ⟨if_pos hc, hc⟩)
    · exact .inl ⟨if_neg hc, hquote, hbackslash⟩
  all_goals exact .inr (.inl ⟨_, rfl, by decide, rfl⟩)

theorem escapedChar_ne_quote {c : Char} {cs rest rest' : List Char} :
    '"' :: rest ≠ escapedChar c ++ cs ++ rest' := by
  rcases escapedChar_cases c with ⟨hc, hquote, -⟩ | ⟨e, hc, -, -⟩ | ⟨hc, -⟩
  · rw [hc]
    intro h
    exact hquote (List.cons.inj h).1.symm
  · rw [hc]
    intro h
    exact absurd (List.cons.inj h).1 (by decide)
  · rw [hc]
    intro h
    exact absurd (List.cons.inj h).1 (by decide)

/-- Control characters have different numbers in their two last digits. -/
theorem fourDigits_append_inj {m n : Nat} (hm : m < 0x20) (hn : n < 0x20) {rest rest' : List Char}
    (h : Text.Hex.fourDigits m ++ rest = Text.Hex.fourDigits n ++ rest') :
    m = n ∧ rest = rest' := by
  have hdigit : ∀ {x y : Nat}, x < 16 → y < 16 → Text.Hex.digit x = Text.Hex.digit y → x = y := by
    intro x y hx hy hxy
    have hvalue := Text.Hex.digitValue?_digit hx
    rw [hxy, Text.Hex.digitValue?_digit hy] at hvalue
    exact (Option.some.inj hvalue).symm
  simp only [Text.Hex.fourDigits, List.cons_append, List.nil_append, List.cons.injEq] at h
  obtain ⟨-, -, hhigh, hlow, hrest⟩ := h
  have hhigh := hdigit (by omega) (by omega) hhigh
  have hlow := hdigit (by omega) (by omega) hlow
  exact ⟨by omega, hrest⟩

theorem escapedChar_append_inj {c d : Char} {rest rest' : List Char}
    (h : escapedChar c ++ rest = escapedChar d ++ rest') : c = d ∧ rest = rest' := by
  rcases escapedChar_cases c with ⟨hc, -, hbackslash⟩ | ⟨e, hc, hu, he⟩ | ⟨hc, hlow⟩ <;>
    rcases escapedChar_cases d with ⟨hd, -, hbackslash'⟩ | ⟨e', hd, hu', he'⟩ | ⟨hd, hlow'⟩ <;>
    rw [hc, hd] at h <;>
    simp only [List.cons_append, List.nil_append, List.cons.injEq] at h
  · exact h
  · exact absurd h.1 hbackslash
  · exact absurd h.1 hbackslash
  · exact absurd h.1.symm hbackslash'
  · obtain ⟨-, rfl, hrest⟩ := h
    exact ⟨he.symm.trans he', hrest⟩
  · exact absurd h.2.1 hu
  · exact absurd h.1.symm hbackslash'
  · exact absurd h.2.1.symm hu'
  · obtain ⟨hvalue, hrest⟩ := fourDigits_append_inj hlow hlow' h.2.2
    exact ⟨Char.toNat_inj.mp hvalue, hrest⟩

/-- A string ends at its first quote that is not escaped. -/
theorem escaped_append_inj {cs ds rest rest' : List Char}
    (h : cs.flatMap escapedChar ++ '"' :: rest = ds.flatMap escapedChar ++ '"' :: rest') :
    cs = ds ∧ rest = rest' := by
  induction cs generalizing ds with
  | nil =>
    cases ds with
    | nil => exact ⟨rfl, (List.cons.inj h).2⟩
    | cons d ds =>
      rw [List.flatMap_cons] at h
      exact absurd h escapedChar_ne_quote
  | cons c cs ih =>
    cases ds with
    | nil =>
      rw [List.flatMap_cons] at h
      exact absurd h.symm escapedChar_ne_quote
    | cons d ds =>
      rw [List.flatMap_cons, List.flatMap_cons, List.append_assoc, List.append_assoc] at h
      obtain ⟨rfl, htail⟩ := escapedChar_append_inj h
      obtain ⟨rfl, hrest⟩ := ih htail
      exact ⟨rfl, hrest⟩

theorem stringChars_append_inj {s t : String} {rest rest' : List Char}
    (h : stringChars s ++ rest = stringChars t ++ rest') : s = t ∧ rest = rest' := by
  simp only [stringChars, List.cons_append, List.append_assoc, List.nil_append] at h
  obtain ⟨hchars, hrest⟩ := escaped_append_inj (List.cons.inj h).2
  exact ⟨String.toList_inj.mp hchars, hrest⟩

/-! ## Whole numbers -/

/-- Whether a character may be part of a whole number. -/
def isNumeric (c : Char) : Bool := c == '-' || c.isDigit

theorem takeWhile_toString (n : Int) {rest : List Char} (hrest : Delimits rest) :
    ((toString n).toList ++ rest).takeWhile isNumeric = (toString n).toList := by
  have hall : ∀ c ∈ (toString n).toList, isNumeric c = true := by
    intro c hc
    rcases mem_toString hc with rfl | hdigit
    · rfl
    · simp [isNumeric, hdigit]
  have hnone : rest.takeWhile isNumeric = [] := by
    cases rest with
    | nil => rfl
    | cons c r => rcases hrest c rfl with rfl | rfl | rfl <;> rfl
  rw [List.takeWhile_append_of_pos hall, hnone, List.append_nil]

theorem toDigits_inj {m n : Nat} (h : Nat.toDigits 10 m = Nat.toDigits 10 n) : m = n := by
  have hvalue := congrArg (Nat.ofDigitChars 10 · 0) h
  simpa only [Nat.ofDigitChars_ten_toDigits] using hvalue

theorem toString_int_inj {m n : Int} (h : (toString m).toList = (toString n).toList) : m = n := by
  have hsign : ∀ {k : Nat} {ds : List Char}, Nat.toDigits 10 k ≠ '-' :: ds := by
    intro k ds hk
    have hdigit := List.all_eq_true.mp (Text.allDigits_toDigits k) '-'
    rw [hk] at hdigit
    exact absurd (hdigit (List.mem_cons_self ..)) (by decide)
  rw [toList_toString, toList_toString] at h
  by_cases hm : m < 0
  · by_cases hn : n < 0
    · rw [if_pos hm, if_pos hn] at h
      have habs := toDigits_inj (List.cons.inj h).2
      omega
    · rw [if_pos hm, if_neg hn] at h
      exact absurd h.symm hsign
  · by_cases hn : n < 0
    · rw [if_neg hm, if_pos hn] at h
      exact absurd h hsign
    · rw [if_neg hm, if_neg hn] at h
      have habs := toDigits_inj h
      omega

theorem toString_append_inj {m n : Int} {rest rest' : List Char} (hrest : Delimits rest)
    (hrest' : Delimits rest') (h : (toString m).toList ++ rest = (toString n).toList ++ rest') :
    m = n ∧ rest = rest' := by
  have hnumeral := congrArg (List.takeWhile isNumeric) h
  rw [takeWhile_toString m hrest, takeWhile_toString n hrest'] at hnumeral
  obtain rfl := toString_int_inj hnumeral
  exact ⟨rfl, List.append_cancel_left h⟩

/-! ## Lists of parts -/

theorem joined_cons (cs : List Char) (r : List (List Char)) :
    joined [','] (cs :: r) = cs ++ r.flatMap (',' :: ·) := by
  induction r generalizing cs with
  | nil => simp [joined]
  | cons ds r ih => rw [joined, ih ds]; simp; simp

section

variable {α : Type} {write : α → List Char} {ok : α → Prop} {close : Char}
  {l m : List α} {rest rest' : List Char}

theorem delimits_tail (hclose : close = ']' ∨ close = '\x7d') (l : List α) (rest : List Char) :
    Delimits ((l.map write).flatMap (',' :: ·) ++ close :: rest) := by
  cases l with
  | nil => exact .cons (.inr hclose) rest
  | cons a r => exact .cons (.inl rfl) _

/-- Parts that are told from what follows make lists that are. The induction is on what stands
after the first part, where every part has a comma before it. -/
theorem told_tail (hclose : close = ']' ∨ close = '\x7d') (htold : ∀ a ∈ l, Told write ok a)
    (hok : ∀ b ∈ m, ok b)
    (h : (l.map write).flatMap (',' :: ·) ++ close :: rest =
      (m.map write).flatMap (',' :: ·) ++ close :: rest') : l = m ∧ rest = rest' := by
  have hcomma : close ≠ ',' := by rcases hclose with rfl | rfl <;> decide
  induction l generalizing m with
  | nil =>
    cases m with
    | nil => exact ⟨rfl, (List.cons.inj h).2⟩
    | cons b m => exact absurd (List.cons.inj h).1 hcomma
  | cons a l ih =>
    cases m with
    | nil => exact absurd (List.cons.inj h).1.symm hcomma
    | cons b m =>
      simp only [List.map_cons, List.flatMap_cons, List.cons_append, List.append_assoc,
        List.cons.injEq, true_and] at h
      obtain ⟨rfl, htail⟩ := htold a (List.mem_cons_self ..) b _ _ (hok b (List.mem_cons_self ..))
        (delimits_tail hclose l rest) (delimits_tail hclose m rest') h
      obtain ⟨rfl, hrest⟩ := ih (fun x hx => htold x (List.mem_cons_of_mem _ hx))
        (fun x hx => hok x (List.mem_cons_of_mem _ hx)) htail
      exact ⟨rfl, hrest⟩

theorem told_joined (hclose : close = ']' ∨ close = '\x7d') (htold : ∀ a ∈ l, Told write ok a)
    (hl : ∀ a ∈ l, ok a) (hm : ∀ b ∈ m, ok b)
    (hopen : ∀ a, ok a → ∀ cs ds, write a ++ cs ≠ close :: ds)
    (h : joined [','] (l.map write) ++ close :: rest =
      joined [','] (m.map write) ++ close :: rest') : l = m ∧ rest = rest' := by
  cases l with
  | nil =>
    cases m with
    | nil => exact ⟨rfl, (List.cons.inj h).2⟩
    | cons b m =>
      rw [List.map_cons, joined_cons, List.append_assoc] at h
      exact absurd h.symm (hopen b (hm b (List.mem_cons_self ..)) _ _)
  | cons a l =>
    cases m with
    | nil =>
      rw [List.map_cons, joined_cons, List.append_assoc] at h
      exact absurd h (hopen a (hl a (List.mem_cons_self ..)) _ _)
    | cons b m =>
      rw [List.map_cons, List.map_cons, joined_cons, joined_cons, List.append_assoc,
        List.append_assoc] at h
      obtain ⟨rfl, htail⟩ := htold a (List.mem_cons_self ..) b _ _ (hm b (List.mem_cons_self ..))
        (delimits_tail hclose l rest) (delimits_tail hclose m rest') h
      obtain ⟨rfl, hrest⟩ := told_tail hclose (fun x hx => htold x (List.mem_cons_of_mem _ hx))
        (fun x hx => hm x (List.mem_cons_of_mem _ hx)) htail
      exact ⟨rfl, hrest⟩

end

/-! ## Values -/

/-- What the first character of a written value shows of it. -/
inductive Kind where
  | null
  | bool
  | integer
  | string
  | array
  | object
  | inexact

/-- The kind of a value that begins with a character. -/
def Kind.ofChar : Char → Kind
  | 'n' => null
  | 't' => bool
  | 'f' => bool
  | '"' => string
  | '[' => array
  | '\x7b' => object
  | _ => integer

/-- The kind of a value. -/
def kind : Json → Kind
  | null => .null
  | bool _ => .bool
  | integer _ => .integer
  | string _ => .string
  | array _ => .array
  | object _ => .object
  | float _ | broken => .inexact

/-- A written value begins with a character of its kind, and never with a closing bracket. -/
theorem exists_head {v : Json} (h : IsExact v) (rest : List Char) :
    ∃ c r, v.chars ++ rest = c :: r ∧ Kind.ofChar c = v.kind ∧ c ≠ ']' ∧ c ≠ '\x7d' := by
  cases v with
  | null => exact ⟨_, _, rfl, rfl, by decide, by decide⟩
  | bool b => cases b <;> exact ⟨_, _, rfl, rfl, by decide, by decide⟩
  | integer n =>
    have hne : (toString n).toList ≠ [] := by
      rw [toList_toString]
      split
      · exact List.cons_ne_nil _ _
      · exact Nat.toDigits_ne_nil
    obtain ⟨c, r, hcr⟩ := List.exists_cons_of_ne_nil hne
    refine ⟨c, r ++ rest, congrArg (· ++ rest) hcr, ?_⟩
    rcases mem_toString (n := n) (c := c) (by rw [hcr]; exact List.mem_cons_self ..) with rfl | hc
    · exact ⟨rfl, by decide, by decide⟩
    · have hne : ∀ d : Char, d.isDigit = false → c ≠ d := by
        rintro d hd rfl
        rw [hc] at hd
        cases hd
      refine ⟨?_, hne _ rfl, hne _ rfl⟩
      unfold Kind.ofChar
      split <;> first | rfl | exact absurd hc (by decide)
  | string s => exact ⟨_, _, rfl, rfl, by decide, by decide⟩
  | array items => exact ⟨_, _, rfl, rfl, by decide, by decide⟩
  | object fields => exact ⟨_, _, rfl, rfl, by decide, by decide⟩
  | float x => exact h.elim
  | broken => exact h.elim

theorem kind_eq_of_append_eq {v w : Json} {rest rest' : List Char} (hv : IsExact v)
    (hw : IsExact w) (h : v.chars ++ rest = w.chars ++ rest') : v.kind = w.kind := by
  obtain ⟨c, r, hc, hkind, -⟩ := exists_head hv rest
  obtain ⟨c', r', hc', hkind', -⟩ := exists_head hw rest'
  obtain ⟨rfl, -⟩ := List.cons.inj (hc.symm.trans (h.trans hc'))
  exact hkind.symm.trans hkind'

/-- What is written for a field. -/
def writtenField (p : String × Json) : List Char := stringChars p.1 ++ ':' :: chars p.2

theorem itemChars_eq_map (items : List Json) : itemChars items = items.map chars := by
  induction items with
  | nil => rfl
  | cons v r ih => rw [itemChars, ih, List.map_cons]

theorem fieldChars_eq_map (fields : List (String × Json)) :
    fieldChars fields = fields.map writtenField := by
  induction fields with
  | nil => rfl
  | cons p r ih => rw [fieldChars, ih, List.map_cons, writtenField]

theorem told_field {p : String × Json} (h : Told chars IsExact p.2) :
    Told writtenField (fun q => IsExact q.2) p := by
  intro q rest rest' hq hrest hrest' heq
  simp only [writtenField, List.append_assoc, List.cons_append] at heq
  obtain ⟨hname, hvalue⟩ := stringChars_append_inj heq
  obtain ⟨hsame, hrest⟩ := h q.2 rest rest' hq hrest hrest' (List.cons.inj hvalue).2
  exact ⟨Prod.ext hname hsame, hrest⟩

mutual

/-- What is written for an exact value is told from what follows. -/
theorem told_chars : ∀ v : Json, IsExact v → Told chars IsExact v
  | null, hv => by
    intro w rest rest' hw _ _ h
    have hkind := kind_eq_of_append_eq hv hw h
    cases w with
    | null => exact ⟨rfl, List.append_cancel_left h⟩
    | _ => cases hkind
  | bool b, hv => by
    intro w rest rest' hw _ _ h
    have hkind := kind_eq_of_append_eq hv hw h
    cases w with
    | bool b' =>
      cases b <;> cases b'
      · exact ⟨rfl, List.append_cancel_left h⟩
      · exact absurd (List.cons.inj h).1 (by decide)
      · exact absurd (List.cons.inj h).1 (by decide)
      · exact ⟨rfl, List.append_cancel_left h⟩
    | _ => cases hkind
  | integer n, hv => by
    intro w rest rest' hw hrest hrest' h
    have hkind := kind_eq_of_append_eq hv hw h
    cases w with
    | integer m =>
      obtain ⟨rfl, hrest⟩ := toString_append_inj hrest hrest' h
      exact ⟨rfl, hrest⟩
    | _ => cases hkind
  | string s, hv => by
    intro w rest rest' hw _ _ h
    have hkind := kind_eq_of_append_eq hv hw h
    cases w with
    | string t =>
      obtain ⟨rfl, hrest⟩ := stringChars_append_inj h
      exact ⟨rfl, hrest⟩
    | _ => cases hkind
  | array items, hv => by
    intro w rest rest' hw _ _ h
    have hkind := kind_eq_of_append_eq hv hw h
    cases w with
    | array items' =>
      simp only [chars, itemChars_eq_map, List.cons_append, List.append_assoc, List.nil_append]
        at h
      obtain ⟨rfl, hrest⟩ := told_joined (.inl rfl) (told_items items hv) (itemsExact_iff.mp hv)
        (itemsExact_iff.mp hw) (fun v hv cs ds => by
          obtain ⟨c, r, hc, -, hne, -⟩ := exists_head hv cs
          rw [hc]
          exact fun e => hne (List.cons.inj e).1) (List.cons.inj h).2
      exact ⟨rfl, hrest⟩
    | _ => cases hkind
  | object fields, hv => by
    intro w rest rest' hw _ _ h
    have hkind := kind_eq_of_append_eq hv hw h
    cases w with
    | object fields' =>
      simp only [chars, fieldChars_eq_map, List.cons_append, List.append_assoc, List.nil_append]
        at h
      obtain ⟨rfl, hrest⟩ := told_joined (.inr rfl) (told_fields fields hv)
        (fieldsExact_iff.mp hv) (fieldsExact_iff.mp hw)
        (fun p _ cs ds e => absurd (List.cons.inj e).1 (by decide)) (List.cons.inj h).2
      exact ⟨rfl, hrest⟩
    | _ => cases hkind

theorem told_items : ∀ items : List Json, ItemsExact items →
    ∀ v ∈ items, Told chars IsExact v
  | [], _ => nofun
  | v :: r, h => fun w hw => by
    have hfirst := told_chars v h.1
    rcases List.mem_cons.mp hw with rfl | hw
    · exact hfirst
    · exact told_items r h.2 w hw

theorem told_fields : ∀ fields : List (String × Json), FieldsExact fields →
    ∀ p ∈ fields, Told writtenField (fun q => IsExact q.2) p
  | [], _ => nofun
  | (k, v) :: r, h => fun p hp => by
    have hfirst := told_field (p := (k, v)) (told_chars v h.1)
    rcases List.mem_cons.mp hp with rfl | hp
    · exact hfirst
    · exact told_fields r h.2 p hp

end

/-- Exact values are told by their texts. -/
theorem IsExact.eq_of_chars_eq {v w : Json} (hv : IsExact v) (hw : IsExact w)
    (h : v.chars = w.chars) : v = w := by
  have happend : v.chars ++ [] = w.chars ++ [] := by rw [h]
  exact (told_chars v hv w [] [] hw .nil .nil happend).1

end LedgerGate.Json

import LedgerGate.Proofs.Json.Tokens

/-!
# Reading written values

A plain value is read back as it was written up to the limit of nesting, below which its containers
have no value (`readWithin?_chars_within`). So one that is not nested too deeply is read back as it
is, from the text without blanks (`read?_chars`) and from the bytes of the text with line breaks
(`ofBytes?_pretty`).
-/

namespace LedgerGate.Json

mutual

/-- How deeply containers are nested in a value. -/
def depth : Json → Nat
  | array items => itemsDepth items + 1
  | object fields => fieldsDepth fields + 1
  | _ => 0

/-- How deeply containers are nested in items. -/
def itemsDepth : List Json → Nat
  | [] => 0
  | v :: r => max (depth v) (itemsDepth r)

/-- How deeply containers are nested in fields. -/
def fieldsDepth : List (String × Json) → Nat
  | [] => 0
  | (_, v) :: r => max (depth v) (fieldsDepth r)

end

mutual

/-- A value as far as it is nested no deeper than a limit; a container below has no value. -/
def within (limit : Nat) : Json → Json
  | array items =>
    match limit with
    | 0 => broken
    | n + 1 => array (itemsWithin n items)
  | object fields =>
    match limit with
    | 0 => broken
    | n + 1 => object (fieldsWithin n fields)
  | v => v

/-- Items as far as they are nested no deeper than a limit. -/
def itemsWithin (limit : Nat) : List Json → List Json
  | [] => []
  | v :: r => within limit v :: itemsWithin limit r

/-- Fields as far as they are nested no deeper than a limit. -/
def fieldsWithin (limit : Nat) : List (String × Json) → List (String × Json)
  | [] => []
  | (k, v) :: r => (k, within limit v) :: fieldsWithin limit r

end

theorem itemsWithin_eq_map (limit : Nat) (items : List Json) :
    itemsWithin limit items = items.map (within limit) := by
  induction items with
  | nil => rfl
  | cons v r ih => rw [itemsWithin, ih, List.map_cons]

mutual

/-- A value that is not nested too deeply is all within the limit. -/
theorem within_of_depth_le : ∀ {limit : Nat} (v : Json), v.depth ≤ limit → v.within limit = v
  | 0, array _, h | 0, object _, h => absurd h (by simp [depth])
  | n + 1, array items, h =>
    congrArg array (itemsWithin_of_depth_le items (Nat.le_of_succ_le_succ h))
  | n + 1, object fields, h =>
    congrArg object (fieldsWithin_of_depth_le fields (Nat.le_of_succ_le_succ h))
  | _, null, _ | _, bool _, _ | _, integer _, _ | _, float _, _ | _, string _, _ => rfl
  | _, broken, _ => rfl

theorem itemsWithin_of_depth_le : ∀ {limit : Nat} (items : List Json),
    itemsDepth items ≤ limit → itemsWithin limit items = items
  | _, [], _ => rfl
  | _, v :: r, h => by
    obtain ⟨hv, hr⟩ := Nat.max_le.mp h
    rw [itemsWithin, within_of_depth_le v hv, itemsWithin_of_depth_le r hr]

theorem fieldsWithin_of_depth_le : ∀ {limit : Nat} (fields : List (String × Json)),
    fieldsDepth fields ≤ limit → fieldsWithin limit fields = fields
  | _, [], _ => rfl
  | _, (k, v) :: r, h => by
    obtain ⟨hv, hr⟩ := Nat.max_le.mp h
    rw [fieldsWithin, within_of_depth_le v hv, fieldsWithin_of_depth_le r hr]

end

/-- What a builder makes of tokens after a value was added to open brackets. -/
def runAfter (limit : Nat) (frames : List Frame) (v : Json) (rest : List Token) : Option Builder :=
  match addValue frames v with
  | some b => b.run limit rest
  | none => none

theorem run_cons {limit : Nat} {b b' : Builder} {t : Token} (r : List Token)
    (h : b.step limit t = some b') : b.run limit (t :: r) = b'.run limit r := by
  simp [Builder.run, h]

theorem run_cons_eq {limit : Nat} {b : Builder} {t : Token} {frames : List Frame} {v : Json}
    (r : List Token) (h : b.step limit t = addValue frames v) :
    b.run limit (t :: r) = runAfter limit frames v r := by
  simp only [Builder.run, h]
  rfl

/-- A bracket that was just opened takes a value as one that has values already. -/
theorem run_itemOrClose (limit : Nat) (frames : List Frame) (v : Json) (rest : List Token) :
    Builder.run limit ⟨frames, .itemOrClose, none⟩ (v.tokens ++ rest) =
      Builder.run limit ⟨frames, .value, none⟩ (v.tokens ++ rest) := by
  cases v <;> rfl

/-- A field whose name has a text. -/
def namedField (p : String × Json) : Option String × Json := (some p.1, p.2)

theorem namedFields?_map (fields : List (String × Json)) :
    namedFields? (fields.map namedField) = some fields := by
  induction fields with
  | nil => rfl
  | cons p r ih =>
    simp only [namedFields?] at ih ⊢
    simp [traverse, ih, namedField]

theorem closeArray_eq (limit : Nat) (frames : List Frame) (items : List Json) :
    closeArray limit (.array (itemsWithin (limit - (frames.length + 1)) items).reverse :: frames) =
      addValue frames (within (limit - frames.length) (array items)) := by
  by_cases h : limit < frames.length + 1
  · have hzero : limit - frames.length = 0 := by omega
    simp [closeArray, closedArray, h, hzero, within]
  · have hsucc : limit - frames.length = limit - (frames.length + 1) + 1 := by omega
    rw [closeArray, closedArray, if_neg h, List.reverse_reverse, hsucc, within]

theorem closeObject_eq (limit : Nat) (frames : List Frame) (fields : List (String × Json)) :
    closeObject limit (.object
        ((fieldsWithin (limit - (frames.length + 1)) fields).map namedField).reverse none ::
          frames) =
      addValue frames (within (limit - frames.length) (object fields)) := by
  by_cases h : limit < frames.length + 1
  · have hzero : limit - frames.length = 0 := by omega
    simp [closeObject, closedObject, h, hzero, within]
  · have hsucc : limit - frames.length = limit - (frames.length + 1) + 1 := by omega
    rw [closeObject, closedObject, if_neg h, List.reverse_reverse, namedFields?_map, hsucc, within]

mutual

/-- The tokens of a value add that value, as far as it is within the limit at this depth. -/
theorem run_tokens (limit : Nat) : ∀ (v : Json) (frames : List Frame) (rest : List Token),
    IsPlain v → Builder.run limit ⟨frames, .value, none⟩ (v.tokens ++ rest) =
      runAfter limit frames (v.within (limit - frames.length)) rest
  | null, _, rest, _ => run_cons_eq rest rfl
  | bool _, _, rest, _ => run_cons_eq rest rfl
  | integer _, _, rest, _ => run_cons_eq rest rfl
  | string _, _, rest, _ => run_cons_eq rest rfl
  | array items, frames, rest, h => by
    simp only [tokens, List.cons_append, List.append_assoc, List.nil_append]
    rw [run_cons _ rfl]
    cases items with
    | nil => exact run_cons_eq _ (closeArray_eq limit frames [])
    | cons v r =>
      -- The first item is expected where the bracket could also be closed.
      have hfirst : Builder.run limit ⟨.array [] :: frames, .itemOrClose, none⟩
            (separated (itemTokens (v :: r)) ++ .closeArray :: rest) =
          Builder.run limit ⟨.array [] :: frames, .value, none⟩
            (separated (itemTokens (v :: r)) ++ .closeArray :: rest) := by
        cases r with
        | nil => exact run_itemOrClose limit _ v _
        | cons w r =>
          simp only [itemTokens, separated, List.append_assoc]
          exact run_itemOrClose limit _ v _
      refine hfirst.trans ((run_items limit (v :: r) [] frames _ (by simp) h).trans ?_)
      rw [List.append_nil]
      exact run_cons_eq _ (closeArray_eq limit frames (v :: r))
  | object fields, frames, rest, h => by
    simp only [tokens, List.cons_append, List.append_assoc, List.nil_append]
    rw [run_cons _ rfl]
    cases fields with
    | nil => exact run_cons_eq _ (closeObject_eq limit frames [])
    | cons p r =>
      have hfirst : Builder.run limit ⟨.object [] none :: frames, .nameOrClose, none⟩
            (separated (fieldTokens (p :: r)) ++ .closeObject :: rest) =
          Builder.run limit ⟨.object [] none :: frames, .name, none⟩
            (separated (fieldTokens (p :: r)) ++ .closeObject :: rest) := by
        obtain ⟨k, v⟩ := p
        cases r <;> rfl
      refine hfirst.trans ((run_fields limit (p :: r) [] frames _ (by simp) h).trans ?_)
      rw [List.append_nil]
      exact run_cons_eq _ (closeObject_eq limit frames (p :: r))

/-- The tokens of items add these items to an open array. -/
theorem run_items (limit : Nat) : ∀ (items acc : List Json) (frames : List Frame)
    (rest : List Token), items ≠ [] → ItemsPlain items →
    Builder.run limit ⟨.array acc :: frames, .value, none⟩ (separated (itemTokens items) ++ rest) =
      Builder.run limit
        ⟨.array ((itemsWithin (limit - (frames.length + 1)) items).reverse ++ acc) :: frames,
          .separator, none⟩ rest
  | [], _, _, _, hne, _ => absurd rfl hne
  | [v], acc, frames, rest, _, h => run_tokens limit v (.array acc :: frames) rest h.1
  | v :: w :: r, acc, frames, rest, _, h => by
    simp only [itemTokens, separated, List.append_assoc, List.cons_append]
    rw [run_tokens limit v (.array acc :: frames) _ h.1]
    show Builder.run limit ⟨.array (_ :: acc) :: frames, .separator, none⟩ (.comma :: _) = _
    refine (run_cons _ rfl).trans ?_
    refine (run_items limit (w :: r) (_ :: acc) frames rest (by simp) h.2).trans ?_
    simp [itemsWithin]

/-- The tokens of fields add these fields to an open object. -/
theorem run_fields (limit : Nat) : ∀ (fields : List (String × Json))
    (acc : List (Option String × Json)) (frames : List Frame) (rest : List Token),
    fields ≠ [] → FieldsPlain fields →
    Builder.run limit ⟨.object acc none :: frames, .name, none⟩
        (separated (fieldTokens fields) ++ rest) =
      Builder.run limit
        ⟨.object (((fieldsWithin (limit - (frames.length + 1)) fields).map namedField).reverse ++
            acc) none :: frames,
          .separator, none⟩ rest
  | [], _, _, _, hne, _ => absurd rfl hne
  | [(k, v)], acc, frames, rest, _, h =>
    run_tokens limit v (.object acc (some (some k)) :: frames) rest h.1
  | (k, v) :: q :: r, acc, frames, rest, _, h => by
    simp only [fieldTokens, separated, List.append_assoc, List.cons_append]
    refine (run_cons _ rfl).trans ((run_cons _ rfl).trans ?_)
    rw [run_tokens limit v (.object acc (some (some k)) :: frames) _ h.1]
    show Builder.run limit ⟨.object (_ :: acc) none :: frames, .separator, none⟩
      (.comma :: _) = _
    refine (run_cons _ rfl).trans ?_
    refine (run_fields limit (q :: r) (_ :: acc) frames rest (by simp) h.2).trans ?_
    simp [fieldsWithin, namedField]

end

theorem ofTokens?_tokens {limit : Nat} {v : Json} (h : IsPlain v) :
    ofTokens? limit v.tokens = some (v.within limit) := by
  have hrun := run_tokens limit v [] [] h
  rw [List.append_nil] at hrun
  rw [ofTokens?, Builder.start, hrun]
  rfl

/-- What was written without blanks is read back as far as it is within the limit of nesting. -/
theorem readWithin?_chars_within {limit : Nat} {v : Json} (h : IsPlain v) :
    readWithin? limit v.chars = some (v.within limit) := by
  simp only [readWithin?, readPieces?, tokensOf?_of_reads (reads_chars v h)]
  exact ofTokens?_tokens h

theorem readWithin?_chars {limit : Nat} {v : Json} (h : IsPlain v) (hd : v.depth ≤ limit) :
    readWithin? limit v.chars = some v := by
  rw [readWithin?_chars_within h, within_of_depth_le v hd]

/-- Reading is the inverse of writing without blanks. -/
theorem read?_chars {v : Json} (h : IsPlain v) (hd : v.depth ≤ maxDepth) :
    read? v.chars = some v := readWithin?_chars h hd

/-- Reading stored bytes is the inverse of storing a text with line breaks. -/
theorem ofBytes?_pretty {v : Json} (h : IsPlain v) (hd : v.depth ≤ maxDepth) :
    ofBytes? (Text.Utf8.encode v.pretty) = some v := by
  simp only [ofBytes?, readPieces?, Text.Utf8.pieces_encode, pretty, String.toList_ofList,
    tokensOf?_of_reads (reads_prettyChars 0 v h)]
  rw [ofTokens?_tokens h, within_of_depth_le v hd]

end LedgerGate.Json

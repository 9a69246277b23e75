import LedgerGate.Log.Replay

/-!
# Reading a log in chunks

A log is read a chunk at a time, and a chunk ends behind a line feed, at the end of the bytes, or
where a line has become too long. So it is a whole line, the beginning of a line that is too long,
or what follows the last line feed (`replayFrom_line`, `replayFrom_tooLong`, `replayFrom_rest`),
and lines that hold entries are read one after another (`replayFrom_closed`).
-/

namespace LedgerGate.Log

/-! ## Bytes as lines -/

/-- Lines, each with its line feed. -/
def closed (ls : List (List UInt8)) : List UInt8 := ls.flatMap (· ++ [10])

@[simp]
theorem closed_nil : closed [] = [] := rfl

@[simp]
theorem closed_cons (l : List UInt8) (ls : List (List UInt8)) :
    closed (l :: ls) = l ++ 10 :: closed ls := by
  simp [closed]

@[simp]
theorem closed_append (ls ms : List (List UInt8)) : closed (ls ++ ms) = closed ls ++ closed ms :=
  List.flatMap_append

/-- Whether bytes are these lines, each with its line feed, and then a rest without one. -/
structure IsSplit (bytes : List UInt8) (ls : List (List UInt8)) (rest : List UInt8) : Prop where
  eq_append : bytes = closed ls ++ rest
  notMem_lines : ∀ l ∈ ls, 10 ∉ l
  notMem_rest : 10 ∉ rest

theorem exists_isSplit (bytes : List UInt8) : ∃ ls rest, IsSplit bytes ls rest := by
  induction bytes with
  | nil => exact ⟨[], [], rfl, nofun, List.not_mem_nil⟩
  | cons b r ih =>
    obtain ⟨ls, rest, rfl, hls, hrest⟩ := ih
    by_cases hb : b = 10
    · subst hb
      exact ⟨[] :: ls, rest, by simp, List.forall_mem_cons.mpr ⟨List.not_mem_nil, hls⟩, hrest⟩
    · have hcons : ∀ part : List UInt8, 10 ∉ part → 10 ∉ b :: part := fun part hpart =>
        List.not_mem_cons_of_ne_of_not_mem (Ne.symm hb) hpart
      -- the byte begins the first line, or the rest if there is no line
      cases ls with
      | nil => exact ⟨[], b :: rest, rfl, nofun, hcons rest hrest⟩
      | cons l ls =>
        obtain ⟨hl, hls⟩ := List.forall_mem_cons.mp hls
        exact ⟨(b :: l) :: ls, rest, by simp, List.forall_mem_cons.mpr ⟨hcons l hl, hls⟩, hrest⟩

theorem foldl_splitStep {bytes : List UInt8} (h : 10 ∉ bytes) (done : List (List UInt8))
    (part : List UInt8) : bytes.foldl splitStep (done, part) = (done, bytes.reverse ++ part) := by
  induction bytes generalizing part with
  | nil => rfl
  | cons b r ih =>
    have hb : b ≠ 10 := (List.ne_of_not_mem_cons h).symm
    rw [List.foldl_cons, splitStep, if_neg hb, ih (List.not_mem_of_not_mem_cons h)]
    simp

theorem foldl_splitStep_closed {ls : List (List UInt8)} (h : ∀ l ∈ ls, 10 ∉ l)
    (done : List (List UInt8)) :
    (closed ls).foldl splitStep (done, []) = (ls.reverse ++ done, []) := by
  induction ls generalizing done with
  | nil => rfl
  | cons l r ih =>
    obtain ⟨hl, hr⟩ := List.forall_mem_cons.mp h
    rw [closed_cons, List.foldl_append, foldl_splitStep hl, List.foldl_cons, splitStep, if_pos rfl,
      ih hr]
    simp

/-- There is one way to split bytes, and they are split that way. -/
theorem IsSplit.splitLines_eq {bytes rest : List UInt8} {ls : List (List UInt8)}
    (h : IsSplit bytes ls rest) : splitLines bytes = (ls, rest) := by
  obtain ⟨rfl, hls, hrest⟩ := h
  simp only [splitLines, List.foldl_append, foldl_splitStep_closed hls, foldl_splitStep hrest]
  simp

theorem isSplit_iff {bytes rest : List UInt8} {ls : List (List UInt8)} :
    IsSplit bytes ls rest ↔ splitLines bytes = (ls, rest) := by
  constructor
  · exact IsSplit.splitLines_eq
  · intro h
    obtain ⟨ls', rest', hsplit⟩ := exists_isSplit bytes
    obtain ⟨rfl, rfl⟩ := Prod.mk.inj (h.symm.trans hsplit.splitLines_eq)
    exact hsplit

/-! ## Chunks -/

theorem readUpTo_append {part : List UInt8} (h : 10 ∉ part) (before : List UInt8) (n : Nat)
    (more : List UInt8) :
    readUpTo before n (part ++ more) =
      readUpTo ((part.take n).reverse ++ before) (n - part.length) (part.drop n ++ more) := by
  induction part generalizing before n with
  | nil => simp
  | cons b r ih =>
    have hb : b ≠ 10 := (List.ne_of_not_mem_cons h).symm
    cases n with
    | zero => simp
    | succ n =>
      rw [List.cons_append, readUpTo, if_neg hb, ih (List.not_mem_of_not_mem_cons h)]
      simp

theorem readChunk_line {line : List UInt8} (h : 10 ∉ line) (hlength : line.length ≤ maxLine)
    (more : List UInt8) : readChunk (line ++ 10 :: more) = (line ++ [10], more) := by
  obtain ⟨n, hn⟩ : ∃ n, maxLine + 1 - line.length = n + 1 := ⟨maxLine - line.length, by omega⟩
  rw [readChunk, readUpTo_append h, hn, List.take_of_length_le (by omega),
    List.drop_of_length_le (by omega), List.nil_append, readUpTo, if_pos rfl]
  simp

theorem readChunk_tooLong {line : List UInt8} (h : 10 ∉ line) (hlength : maxLine < line.length)
    (more : List UInt8) :
    readChunk (line ++ more) = (line.take (maxLine + 1), line.drop (maxLine + 1) ++ more) := by
  rw [readChunk, readUpTo_append h, Nat.sub_eq_zero_of_le hlength, readUpTo]
  simp

theorem readChunk_rest {rest : List UInt8} (h : 10 ∉ rest) (hlength : rest.length ≤ maxLine) :
    readChunk rest = (rest, []) := by
  obtain ⟨n, hn⟩ : ∃ n, maxLine + 1 - rest.length = n + 1 := ⟨maxLine - rest.length, by omega⟩
  have happend := readUpTo_append h [] (maxLine + 1) []
  rw [List.append_nil] at happend
  rw [readChunk, happend, hn, List.take_of_length_le (by omega),
    List.drop_of_length_le (by omega), List.nil_append, readUpTo]
  simp

/-! ## One chunk of a log -/

variable {offset : Nat} {records : List Record} {line rest more : List UInt8}

theorem replayFrom_line (h : 10 ∉ line) (hlength : line.length ≤ maxLine) {record : Record}
    (hrecord : readRecord offset (line ++ [10]) = .ok record) :
    replayFrom offset records (line ++ 10 :: more) =
      replayFrom (offset + line.length + 1) (record :: records) more := by
  rw [replayFrom]
  simp [readChunk_line h hlength, hrecord, Nat.add_assoc]

theorem replayFrom_badLine (h : 10 ∉ line) (hlength : line.length ≤ maxLine) {c : Corruption}
    (hrecord : readRecord offset (line ++ [10]) = .error c) :
    replayFrom offset records (line ++ 10 :: more) = .error c := by
  rw [replayFrom]
  simp [readChunk_line h hlength, hrecord]

/-- Of a line that is too long only the beginning is read, whether it ends or not. -/
theorem replayFrom_tooLong (h : 10 ∉ line) (hlength : maxLine < line.length) :
    replayFrom offset records (line ++ more) = .error (tooLong offset line) := by
  have hlast : (line.take (maxLine + 1)).getLast? ≠ some 10 := fun hlast =>
    h (List.mem_of_mem_take (List.mem_of_getLast? hlast))
  have hne : line.take (maxLine + 1) ≠ [] := by
    intro hnil
    have hzero := congrArg List.length hnil
    rw [List.length_take, List.length_nil] at hzero
    omega
  have hlong : maxLine < (line.take (maxLine + 1)).length := by
    rw [List.length_take]
    omega
  rw [replayFrom]
  simp only [readChunk_tooLong h hlength]
  rw [dif_neg hne, if_neg hlast, if_pos hlong, tooLong, tooLong, List.take_take,
    Nat.min_eq_left (by decide)]

theorem replayFrom_rest (h : 10 ∉ rest) (hlength : rest.length ≤ maxLine) :
    replayFrom offset records rest =
      .ok ⟨records.reverse, if rest = [] then none else some offset⟩ := by
  have hlast : rest.getLast? ≠ some 10 := fun hlast => h (List.mem_of_getLast? hlast)
  rw [replayFrom]
  simp only [readChunk_rest h hlength]
  by_cases hnil : rest = []
  · rw [dif_pos hnil, if_pos hnil]
  · rw [dif_neg hnil, if_neg hlast, if_neg (Nat.not_lt.mpr hlength), if_neg hnil]

/-! ## Lines that hold entries -/

/-- Whether a line holds an entry: it is not too long, and it is a text that is accepted. -/
structure HoldsEntry (line : List UInt8) (raw : String) (e : Entry) : Prop where
  length_le : line.length ≤ maxLine
  decode : Text.Utf8.decode? line = some raw
  accept : decodeLine raw = .ok e

theorem HoldsEntry.readRecord {raw : String} {e : Entry} (h : HoldsEntry line raw e) :
    readRecord offset (line ++ [10]) = .ok ⟨offset, raw, e⟩ := by
  rw [Log.readRecord, List.dropLast_concat, h.decode]
  simp only [h.accept]

/-- Whether records are those of lines, the first of which begins at an offset. -/
inductive Recorded : Nat → List (List UInt8) → List Record → Prop where
  | nil (offset : Nat) : Recorded offset [] []
  | cons {offset : Nat} {line : List UInt8} {raw : String} {e : Entry} {ls : List (List UInt8)}
      {rs : List Record} (h : HoldsEntry line raw e)
      (hrest : Recorded (offset + line.length + 1) ls rs) :
      Recorded offset (line :: ls) (⟨offset, raw, e⟩ :: rs)

/-- Lines that hold entries are read one after another. -/
theorem replayFrom_closed {ls : List (List UInt8)} {rs : List Record} (h : Recorded offset ls rs)
    (hls : ∀ l ∈ ls, 10 ∉ l) :
    replayFrom offset records (closed ls ++ more) =
      replayFrom (offset + (closed ls).length) (rs.reverse ++ records) more := by
  induction h generalizing records with
  | nil offset => rfl
  | @cons offset line raw e ls rs hline _ ih =>
    obtain ⟨hl, hls⟩ := List.forall_mem_cons.mp hls
    have hnext : offset + (closed (line :: ls)).length =
        offset + line.length + 1 + (closed ls).length := by
      simp only [closed_cons, List.length_append, List.length_cons]
      omega
    rw [hnext, closed_cons, List.append_assoc, List.cons_append,
      replayFrom_line hl hline.length_le hline.readRecord, ih hls, List.reverse_cons,
      List.append_assoc, List.singleton_append]

end LedgerGate.Log

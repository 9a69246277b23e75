import LedgerGate.Proofs.Log.Contents

/-!
# Reading any bytes as a log

Bytes are lines, each with its line feed, and a rest. They are read as a log if every line holds an
entry and the rest is no longer than a line may be; a rest that is not empty is a torn tail. In
every other case the log is corrupt, and it is reported where the first line begins that holds
none, or the rest (`replayFile_of_content`).
-/

namespace LedgerGate.Log

/-- Whether a line holds some entry. -/
def IsReadable (line : List UInt8) : Prop := ∃ raw e, HoldsEntry line raw e

/-- Whether lines and a rest can be read as a log. -/
def AreReadable (ls : List (List UInt8)) (rest : List UInt8) : Prop :=
  (∀ l ∈ ls, IsReadable l) ∧ rest.length ≤ maxLine

/-- Whether records are those of lines, in order: each has the text and the entry of its line, and
its offset is the length of all lines before it, line feeds included. -/
def AreRecordsOf (rs : List Record) (ls : List (List UInt8)) : Prop :=
  rs.length = ls.length ∧ ∀ before l after, ls = before ++ l :: after → ∃ raw e,
    HoldsEntry l raw e ∧ rs[before.length]? = some ⟨(closed before).length, raw, e⟩

/-- Whether the first of lines and a rest that cannot be read comes behind these lines. -/
def BreaksAfter (before ls : List (List UInt8)) (rest : List UInt8) : Prop :=
  (∀ l ∈ before, IsReadable l) ∧
    ((∃ l after, ls = before ++ l :: after ∧ ¬ IsReadable l) ∨
      ls = before ∧ maxLine < rest.length)

/-! ## Lines that can be read -/

variable {ls before : List (List UInt8)} {line rest more : List UInt8} {rs records : List Record}
  {offset : Nat}

theorem exists_recorded (h : ∀ l ∈ ls, IsReadable l) (offset : Nat) :
    ∃ rs, Recorded offset ls rs := by
  induction ls generalizing offset with
  | nil => exact ⟨[], .nil offset⟩
  | cons l r ih =>
    obtain ⟨⟨raw, e, hl⟩, hr⟩ := List.forall_mem_cons.mp h
    obtain ⟨rs, hrs⟩ := ih hr (offset + l.length + 1)
    exact ⟨_ :: rs, .cons hl hrs⟩

theorem Recorded.length_eq (h : Recorded offset ls rs) : rs.length = ls.length := by
  induction h with
  | nil offset => rfl
  | cons _ _ ih => rw [List.length_cons, List.length_cons, ih]

theorem Recorded.exists_record (h : Recorded offset ls rs) {l : List UInt8}
    {after : List (List UInt8)} (hls : ls = before ++ l :: after) : ∃ raw e, HoldsEntry l raw e ∧
      rs[before.length]? = some ⟨offset + (closed before).length, raw, e⟩ := by
  induction h generalizing before with
  | nil offset =>
    exact absurd hls.symm (List.append_ne_nil_of_right_ne_nil _ (List.cons_ne_nil _ _))
  | @cons offset line raw e ls rs hline _ ih =>
    cases before with
    | nil =>
      obtain ⟨rfl, rfl⟩ := List.cons.inj hls
      exact ⟨raw, e, hline, rfl⟩
    | cons first r =>
      obtain ⟨rfl, htail⟩ := List.cons.inj hls
      obtain ⟨raw', e', hl, hrecord⟩ := ih htail
      refine ⟨raw', e', hl, ?_⟩
      rw [List.length_cons, List.getElem?_cons_succ, hrecord, closed_cons, List.length_append,
        List.length_cons]
      congr 2
      omega

theorem Recorded.areRecordsOf (h : Recorded 0 ls rs) : AreRecordsOf rs ls := by
  refine ⟨h.length_eq, fun before l after hls => ?_⟩
  obtain ⟨raw, e, hl, hrecord⟩ := h.exists_record hls
  exact ⟨raw, e, hl, by rw [hrecord, Nat.zero_add]⟩

/-! ## The first that cannot be read -/

theorem exists_breaksAfter (h : ¬ AreReadable ls rest) : ∃ before, BreaksAfter before ls rest := by
  induction ls with
  | nil =>
    have hlong : maxLine < rest.length := Nat.not_le.mp fun hle => h ⟨nofun, hle⟩
    exact ⟨[], nofun, .inr ⟨rfl, hlong⟩⟩
  | cons l r ih =>
    by_cases hl : IsReadable l
    · have hr : ¬ AreReadable r rest := fun hr =>
        h ⟨List.forall_mem_cons.mpr ⟨hl, hr.1⟩, hr.2⟩
      obtain ⟨before, hbefore, hbreak⟩ := ih hr
      refine ⟨l :: before, List.forall_mem_cons.mpr ⟨hl, hbefore⟩, ?_⟩
      rcases hbreak with ⟨bad, after, rfl, hbad⟩ | ⟨rfl, hlong⟩
      · exact .inl ⟨bad, after, rfl, hbad⟩
      · exact .inr ⟨rfl, hlong⟩
    · exact ⟨[], nofun, .inl ⟨l, r, rfl, hl⟩⟩

/-- A line that holds no entry is refused where it begins, by its length or by what it says. -/
theorem replayFrom_of_not_isReadable (h : 10 ∉ line) (hline : ¬ IsReadable line) : ∃ raw reason,
    replayFrom offset records (line ++ 10 :: more) = .error ⟨offset, raw, reason⟩ := by
  by_cases hlength : line.length ≤ maxLine
  · cases hdecode : Text.Utf8.decode? line with
    | none =>
      have hrecord : readRecord offset (line ++ [10]) =
          .error ⟨offset, Text.Utf8.lossy (line ++ [10]), "not valid UTF-8"⟩ := by
        rw [readRecord, List.dropLast_concat, hdecode]
      exact ⟨_, _, replayFrom_badLine h hlength hrecord⟩
    | some raw =>
      cases haccept : decodeLine raw with
      | error e =>
        have hrecord : readRecord offset (line ++ [10]) =
            .error ⟨offset, Text.Utf8.lossy (line ++ [10]), e.message⟩ := by
          rw [readRecord, List.dropLast_concat, hdecode]
          simp only [haccept]
        exact ⟨_, _, replayFrom_badLine h hlength hrecord⟩
      | ok e => exact absurd ⟨raw, e, hlength, hdecode, haccept⟩ hline
  · exact ⟨_, _, replayFrom_tooLong h (Nat.not_le.mp hlength)⟩

/-! ## Bytes of any kind -/

variable {bytes : List UInt8}

theorem replay_of_areReadable (hsplit : IsSplit bytes ls rest) (h : AreReadable ls rest) :
    ∃ rs, AreRecordsOf rs ls ∧
      replay bytes = .ok ⟨rs, if rest = [] then none else some (closed ls).length⟩ := by
  obtain ⟨rs, hrs⟩ := exists_recorded h.1 0
  refine ⟨rs, hrs.areRecordsOf, ?_⟩
  rw [replay, hsplit.eq_append, replayFrom_closed hrs hsplit.notMem_lines,
    replayFrom_rest hsplit.notMem_rest h.2, List.append_nil, List.reverse_reverse, Nat.zero_add]

theorem replay_of_breaksAfter (hsplit : IsSplit bytes ls rest) (h : BreaksAfter before ls rest) :
    ∃ raw reason, replay bytes = .error ⟨(closed before).length, raw, reason⟩ := by
  obtain ⟨hbefore, hbreak⟩ := h
  obtain ⟨rs, hrs⟩ := exists_recorded hbefore 0
  rcases hbreak with ⟨bad, after, rfl, hbad⟩ | ⟨rfl, hlong⟩
  · obtain ⟨hnot, hnotRest⟩ := List.forall_mem_append.mp hsplit.notMem_lines
    have hnotBad := hnotRest bad List.mem_cons_self
    obtain ⟨raw, reason, hreplay⟩ : ∃ raw reason, replayFrom (closed before).length
        (rs.reverse ++ []) (bad ++ 10 :: (closed after ++ rest)) =
          .error ⟨(closed before).length, raw, reason⟩ :=
      replayFrom_of_not_isReadable hnotBad hbad
    refine ⟨raw, reason, ?_⟩
    rw [replay, hsplit.eq_append, closed_append, List.append_assoc, replayFrom_closed hrs hnot,
      closed_cons, List.append_assoc, List.cons_append, Nat.zero_add, hreplay]
  · have hreplay : replayFrom (closed ls).length (rs.reverse ++ []) (rest ++ []) =
        .error (tooLong (closed ls).length rest) :=
      replayFrom_tooLong hsplit.notMem_rest hlong
    rw [List.append_nil rest] at hreplay
    have htooLong : replay bytes = .error (tooLong (closed ls).length rest) := by
      rw [replay, hsplit.eq_append, replayFrom_closed hrs hsplit.notMem_lines, Nat.zero_add,
        hreplay]
    exact ⟨_, _, htooLong⟩

/-- Any bytes that are stored as a log are read as the records of their lines, with a tail that is
torn where there is a rest, if all of it can be read. Otherwise there is a first line or rest that
cannot be, and the log is corrupt where it begins. -/
theorem replayFile_of_content {d : Disk} {name : String} (dir : String)
    (h : d.content? name = some bytes) : ∃ ls rest,
      (∀ ls' rest', IsSplit bytes ls' rest' ↔ ls' = ls ∧ rest' = rest) ∧
      (AreReadable ls rest → ∃ rs, AreRecordsOf rs ls ∧
        (replayFile dir name).run.run d =
          (.ok ⟨rs, if rest = [] then none else some (closed ls).length⟩, d)) ∧
      (¬ AreReadable ls rest → ∃ before, BreaksAfter before ls rest) ∧
      ∀ before, BreaksAfter before ls rest → ∃ raw reason, (replayFile dir name).run.run d =
        (.error (.logCorrupt (pathOf dir name) (closed before).length reason raw), d) := by
  have hread := Disk.read_of_content? h
  obtain ⟨ls, rest, hsplit⟩ := exists_isSplit bytes
  refine ⟨ls, rest, fun ls' rest' => ?_, fun hgood => ?_, exists_breaksAfter, fun before hbad => ?_⟩
  · rw [isSplit_iff, hsplit.splitLines_eq, Prod.mk.injEq, eq_comm, eq_comm (a := rest)]
  · obtain ⟨rs, hrs, hreplay⟩ := replay_of_areReadable hsplit hgood
    exact ⟨rs, hrs, run_replayFile hread hreplay⟩
  · obtain ⟨raw, reason, hreplay⟩ := replay_of_breaksAfter hsplit hbad
    exact ⟨raw, reason, run_replayFile hread hreplay⟩

/-- A line, then a byte that is no text on a line of its own, then a rest. -/
def strayBytes : List UInt8 := lines [quotedEntry .begin] ++ [255, 10, 65]

/-- A disk with nothing but a log of these bytes. -/
def strayDisk : Disk := { Disk.empty with nodes := .ofList [("wal.log", .file 0 strayBytes)] }

theorem replayFile_of_content_stray : strayDisk.content? "wal.log" = some strayBytes ∧
    ∃ raw reason, (replayFile "data" "wal.log").run.run strayDisk =
      (.error (.logCorrupt "data/wal.log" (lines [quotedEntry .begin]).length reason raw),
        strayDisk) := by
  have hcontent : strayDisk.content? "wal.log" = some strayBytes := rfl
  have hfits : (quotedEntry .begin).Fits :=
    Entry.IsSound.fits ⟨by decide, by decide, by decide⟩
  have hstray : ¬ IsReadable [255] := by
    rintro ⟨raw, e, -, hdecode, -⟩
    have hnone : Text.Utf8.decode? [255] = none := by decide
    rw [hnone] at hdecode
    cases hdecode
  obtain ⟨ls, rest, hsplit, -, -, hcorrupt⟩ := replayFile_of_content "data" hcontent
  have hlines : IsSplit strayBytes
      [Text.Utf8.encode (quotedEntry .begin).body, [255]] [65] := by
    refine ⟨?_, ?_, by decide⟩
    · rw [strayBytes, lines_eq_closed]
      simp
    · simp [Entry.newline_notMem_body]
  obtain ⟨rfl, rfl⟩ := (hsplit _ _).mp hlines
  have hbreaks : BreaksAfter [Text.Utf8.encode (quotedEntry .begin).body]
      [Text.Utf8.encode (quotedEntry .begin).body, [255]] [65] :=
    ⟨List.forall_mem_singleton.mpr ⟨_, _, Entry.holdsEntry_body hfits⟩,
      .inl ⟨[255], [], rfl, hstray⟩⟩
  obtain ⟨raw, reason, hrun⟩ := hcorrupt _ hbreaks
  rw [lines_eq_closed]
  exact ⟨hcontent, raw, reason, hrun⟩

end LedgerGate.Log

import LedgerGate.Ledger.State
import LedgerGate.Proofs.Decimal.Text
import LedgerGate.Proofs.Json.Records

/-!
# Stored states

What the bytes of a state are read as (`State.ofBytes?_bytes`): the same state, if every
balance in it and in its undo record can be read again, and else nothing.
-/

namespace LedgerGate

namespace Decimal

/-- Whether a decimal has no more digits than the reader of stored values takes. -/
def IsReadable (d : Decimal) : Prop := d.mantissa.natAbs < tenTo maxPrecision

instance (d : Decimal) : Decidable d.IsReadable := inferInstanceAs (Decidable (_ < _))

theorem isPlain_toJson (d : Decimal) : d.toJson.IsPlain := trivial

theorem depth_toJson_le (d : Decimal) : d.toJson.depth ≤ 0 := Nat.le_refl 0

theorem toJson_ne_null (d : Decimal) : d.toJson ≠ .null := by
  simp [toJson]

theorem ofJson?_toJson (d : Decimal) :
    ofJson? d.toJson = if d.IsReadable then some d else none := by
  rw [toJson, ofJson?, text, String.toList_ofList, read_chars_maxPrecision]
  rfl

end Decimal

/-! ## Records and states -/

/-- Whether the numbers of a record are those of a state file. -/
def Undo.IsStorable (u : Undo) : Prop := u.priorVersion ≤ State.maxVersion

/-- Whether every balance of a record can be read again. -/
def Undo.IsReadable (u : Undo) : Prop :=
  ∀ v ∈ u.priorBalances.values, ∀ d ∈ v, Decimal.IsReadable d

instance (u : Undo) : Decidable u.IsReadable :=
  inferInstanceAs (Decidable (∀ v ∈ u.priorBalances.values, ∀ d ∈ v, Decimal.IsReadable d))

namespace State

/-- Whether the numbers of a state are those of a state file. -/
def IsStorable (s : State) : Prop :=
  s.version ≤ maxVersion ∧ ∀ u ∈ s.undo, u.IsStorable

/-- Whether every balance of a state and of its record can be read again. -/
def IsReadable (s : State) : Prop :=
  (∀ d ∈ s.balances.values, d.IsReadable) ∧ ∀ u ∈ s.undo, u.IsReadable

instance (s : State) : Decidable s.IsReadable :=
  inferInstanceAs (Decidable ((∀ d ∈ s.balances.values, d.IsReadable) ∧
    ∀ u ∈ s.undo, u.IsReadable))

end State

theorem Undo.isPlain_toJson {u : Undo} (h : u.IsStorable) : u.toJson.IsPlain := by
  have hb : Json.FieldsPlain (u.priorBalances.entries.map
      fun p => (p.1, Json.ofOption Decimal.toJson p.2)) :=
    Json.fieldsPlain_map fun p _ => Json.ofOption_cases (P := Json.IsPlain) trivial
      Decimal.isPlain_toJson p.2
  have ht : ∀ o : Option String, (Json.ofOption .string o).IsPlain :=
    Json.ofOption_cases (P := Json.IsPlain) trivial fun _ => trivial
  exact ⟨trivial, trivial, ⟨by omega, Int.ofNat_le.mpr h⟩, ht _, ht _, hb, trivial⟩

theorem Undo.depth_toJson_le (u : Undo) : u.toJson.depth ≤ 2 := by
  have hb : Json.fieldsDepth (u.priorBalances.entries.map
      fun p => (p.1, Json.ofOption Decimal.toJson p.2)) ≤ 0 :=
    Json.fieldsDepth_map_le fun p _ => Json.ofOption_cases (P := fun v => v.depth ≤ 0)
      (Nat.le_refl 0) Decimal.depth_toJson_le p.2
  have ht : ∀ o : Option String, (Json.ofOption .string o).depth ≤ 0 :=
    Json.ofOption_cases (P := fun v => v.depth ≤ 0) (Nat.le_refl 0) fun _ => Nat.le_refl 0
  have h1 := ht u.priorTx
  have h2 := ht u.priorPayloadHash
  simp only [toJson, Json.depth, Json.fieldsDepth, Json.ofTable]
  omega

namespace State

theorem isPlain_toJson {s : State} (h : s.IsStorable) : s.toJson.IsPlain := by
  have hb : Json.FieldsPlain (s.balances.entries.map fun p => (p.1, Decimal.toJson p.2)) :=
    Json.fieldsPlain_map fun p _ => p.2.isPlain_toJson
  have ht : ∀ o : Option String, (Json.ofOption .string o).IsPlain :=
    Json.ofOption_cases (P := Json.IsPlain) trivial fun _ => trivial
  have hu : (Json.ofOption Undo.toJson s.undo).IsPlain := by
    cases hs : s.undo with
    | none => trivial
    | some u => exact Undo.isPlain_toJson (h.2 u hs)
  exact ⟨⟨by omega, Int.ofNat_le.mpr h.1⟩, hb, trivial, ht _, ht _, hu, trivial⟩

theorem depth_toJson_le (s : State) : s.toJson.depth ≤ 3 := by
  have hb : Json.fieldsDepth (s.balances.entries.map fun p => (p.1, Decimal.toJson p.2)) ≤ 0 :=
    Json.fieldsDepth_map_le fun p _ => p.2.depth_toJson_le
  have ht : ∀ o : Option String, (Json.ofOption .string o).depth ≤ 0 :=
    Json.ofOption_cases (P := fun v => v.depth ≤ 0) (Nat.le_refl 0) fun _ => Nat.le_refl 0
  have hu : (Json.ofOption Undo.toJson s.undo).depth ≤ 2 :=
    Json.ofOption_cases (P := fun v => v.depth ≤ 2) (Nat.zero_le 2) Undo.depth_toJson_le _
  have h1 := ht s.lastTx
  have h2 := ht s.lastPayloadHash
  simp only [toJson, Json.depth, Json.fieldsDepth, Balances.toJson, Json.ofTable]
  omega

end State

theorem optionalText_ofOption (o : Option String) :
    optionalText (some (Json.ofOption .string o)) = some o := by
  cases o <;> rfl

theorem Undo.ofJson?_toJson {u : Undo} (h : u.IsStorable) (hr : u.IsReadable) :
    ofJson? u.toJson = some u := by
  have hparts : u.toJson.parts? ["tx_id", "intent_hash", "prior_version", "prior_tx_id",
      "prior_payload_hash", "prior_balances"] = _ := Json.parts?_object (by decide) rfl
  have hb : Json.table? (Json.option? Decimal.ofJson?)
      (Json.ofTable (Json.ofOption Decimal.toJson) u.priorBalances) = some u.priorBalances := by
    refine Json.table?_ofTable fun v hv => ?_
    rw [Json.option?_ofOption Decimal.toJson_ne_null]
    cases v with
    | none => rfl
    | some d => simp [Decimal.ofJson?_toJson, hr _ hv d rfl]
  simp [ofJson?, hparts, Json.string?, Json.nat?_integer h, optionalText_ofOption, hb]

theorem Undo.ofJson?_toJson_none {u : Undo} (hr : ¬ u.IsReadable) :
    ofJson? u.toJson = none := by
  have hparts : u.toJson.parts? ["tx_id", "intent_hash", "prior_version", "prior_tx_id",
      "prior_payload_hash", "prior_balances"] = _ := Json.parts?_object (by decide) rfl
  simp only [IsReadable, not_forall] at hr
  obtain ⟨v, hv, d, hd, hnot⟩ := hr
  have hb : Json.table? (Json.option? Decimal.ofJson?)
      (Json.ofTable (Json.ofOption Decimal.toJson) u.priorBalances) = none := by
    refine Json.table?_ofTable_none hv ?_
    obtain rfl := Option.mem_def.mp hd
    rw [Json.option?_ofOption Decimal.toJson_ne_null]
    simp [Decimal.ofJson?_toJson, hnot]
  simp [ofJson?, hparts, Json.string?, optionalText_ofOption, hb]

theorem Undo.toJson_ne_null (u : Undo) : u.toJson ≠ .null := by
  simp [toJson]

namespace Balances

theorem ofJson?_toJson {b : Balances} (h : ∀ d ∈ b.values, d.IsReadable) :
    ofJson? b.toJson = some b :=
  Json.table?_ofTable fun d hd => by rw [Decimal.ofJson?_toJson, if_pos (h d hd)]

theorem ofJson?_toJson_none {b : Balances} (h : ¬ ∀ d ∈ b.values, d.IsReadable) :
    ofJson? b.toJson = none := by
  simp only [not_forall] at h
  obtain ⟨d, hd, hnot⟩ := h
  exact Json.table?_ofTable_none hd (by rw [Decimal.ofJson?_toJson, if_neg hnot])

end Balances

namespace State

/-- A state's data form can be read if all balances in it can, and then it is that state. -/
theorem ofJson?_toJson {s : State} (h : s.IsStorable) (hr : s.IsReadable) :
    ofJson? s.toJson = some s := by
  have hparts : s.toJson.parts? ["version", "balances", "merkle_root", "last_tx_id",
      "last_payload_hash", "undo"] = _ := Json.parts?_object (by decide) rfl
  have hu : Json.option? Undo.ofJson? (Json.ofOption Undo.toJson s.undo) = some s.undo := by
    rw [Json.option?_ofOption Undo.toJson_ne_null]
    cases hs : s.undo with
    | none => rfl
    | some u => simp [Undo.ofJson?_toJson (h.2 u hs) (hr.2 u hs)]
  simp [ofJson?, hparts, Json.string?, Json.optional, Json.nat?_integer h.1,
    optionalText_ofOption, Balances.ofJson?_toJson hr.1, hu]

theorem ofJson?_toJson_none {s : State} (hr : ¬ s.IsReadable) : ofJson? s.toJson = none := by
  have hparts : s.toJson.parts? ["version", "balances", "merkle_root", "last_tx_id",
      "last_payload_hash", "undo"] = _ := Json.parts?_object (by decide) rfl
  rcases not_and_or.mp hr with hb | hu
  · simp [ofJson?, hparts, Balances.ofJson?_toJson_none hb]
  · simp only [not_forall] at hu
    obtain ⟨u, hs, hnot⟩ := hu
    obtain hs := Option.mem_def.mp hs
    have hu : Json.option? Undo.ofJson? (Json.ofOption Undo.toJson s.undo) = none := by
      rw [Json.option?_ofOption Undo.toJson_ne_null, hs]
      simp [Undo.ofJson?_toJson_none hnot]
    simp [ofJson?, hparts, Json.optional, hu]

/-- The bytes of a state can be read if all balances in it can, and then they give that
state. -/
theorem ofBytes?_bytes {s : State} (h : s.IsStorable) :
    ofBytes? s.bytes = if s.IsReadable then some s else none := by
  have hd : s.toJson.depth ≤ Json.maxDepth := s.depth_toJson_le.trans (by decide)
  rw [ofBytes?, bytes, text, Json.ofBytes?_pretty (isPlain_toJson h) hd, Option.bind_some]
  split
  · next hr => exact ofJson?_toJson h hr
  · next hr => exact ofJson?_toJson_none hr

theorem eq_of_ofBytes? {s t : State} (h : s.IsStorable) (ht : ofBytes? s.bytes = some t) :
    t = s := by
  rw [ofBytes?_bytes h] at ht
  split at ht
  · exact (Option.some.inj ht).symm
  · exact absurd ht nofun

/-- A state that is loaded was read. -/
theorem ofBytes?_of_load {path : String} {bytes : List UInt8} {s : State}
    (h : load path bytes = .ok s) : ofBytes? bytes = some s := by
  unfold load at h
  split at h
  · exact absurd h nofun
  · next t ht =>
    split at h
    · exact absurd h nofun
    · split at h
      · rw [ht, Except.ok.inj h]
      · exact absurd h nofun

/-- A state without negative balances, with its root, is loaded from its bytes if all balances
in it can be read again, and only then. -/
theorem load_bytes {path : String} {s : State} (h : s.IsStorable)
    (hroot : s.merkleRoot = s.computedRoot) (hneg : ∀ d ∈ s.balances.values, d.isNegative = false) :
    load path s.bytes =
      if s.IsReadable then .ok s else .error (.stateMalformed path "not a ledger state") := by
  have hfind : s.balances.entries.find? (fun p => p.2.isNegative) = none :=
    List.find?_eq_none.mpr fun p hp => by simp [hneg p.2 (List.mem_map_of_mem hp)]
  rw [load, ofBytes?_bytes h]
  split_ifs
  · simp only [hfind, hroot, if_true]
  · rfl

end State

end LedgerGate

import LedgerGate.Delta
import LedgerGate.Proofs.Decimal.Arithmetic

/-!
# Sums of decimals

Adding up decimals brings the running sum to ever larger scales, and so it could overflow early. If
none of them is negative it does not: every sum on the way is at most the total, at a scale that is
at most the largest one, so the sum is given exactly where the total fits the word at that scale
(`Decimal.sumFrom_eq_ok_iff`). Then the order in which they come does not matter
(`Decimal.sum_exact`).
-/

namespace LedgerGate.Decimal

open Int128 (Fits)

/-- The total of decimals. -/
def total (ds : List Decimal) : ℚ := (ds.map value).sum

/-- The largest scale of decimals. -/
def largestScale (ds : List Decimal) : Nat := (ds.map scale).foldr max 0

@[simp]
theorem total_nil : total [] = 0 := rfl

@[simp]
theorem total_cons (d : Decimal) (r : List Decimal) : total (d :: r) = d.value + total r :=
  List.sum_cons

@[simp]
theorem largestScale_nil : largestScale [] = 0 := rfl

@[simp]
theorem largestScale_cons (d : Decimal) (r : List Decimal) :
    largestScale (d :: r) = max d.scale (largestScale r) := rfl

theorem total_nonneg {ds : List Decimal} (h : ∀ d ∈ ds, 0 ≤ d.value) : 0 ≤ total ds := by
  refine List.sum_nonneg fun x hx => ?_
  obtain ⟨d, hd, rfl⟩ := List.mem_map.mp hx
  exact h d hd

theorem scale_le_largestScale {ds : List Decimal} : ∀ d ∈ ds, d.scale ≤ largestScale ds := by
  induction ds with
  | nil => exact fun d hd => absurd hd List.not_mem_nil
  | cons d r ih =>
    rw [largestScale_cons]
    refine List.forall_mem_cons.mpr ⟨Nat.le_max_left _ _, fun d' hd' => ?_⟩
    exact Nat.le_trans (ih d' hd') (Nat.le_max_right _ _)

theorem largestScale_le (ds : List Decimal) : largestScale ds ≤ 38 := by
  induction ds with
  | nil => exact Nat.zero_le _
  | cons d r ih => exact Nat.max_le.mpr ⟨d.scale_le, ih⟩

/-! ## Where a sum fits -/

theorem eq_iff_scale_value {a b : Decimal} : a = b ↔ a.scale = b.scale ∧ a.value = b.value := by
  constructor
  · rintro rfl
    exact ⟨rfl, rfl⟩
  · rintro ⟨hscale, hvalue⟩
    rw [value, value, hscale, div_left_inj' (tenTo_cast_ne_zero _)] at hvalue
    exact Decimal.ext (Int.cast_injective hvalue) hscale

/-- What is not above a decimal fits at every scale that is not above that of the decimal. -/
theorem fits_of_le_value {m : Int} {k : Nat} {s : Decimal} (hk : k ≤ s.scale) (hm : 0 ≤ m)
    (hle : (m : ℚ) / tenTo k ≤ s.value) : Fits m := by
  have hten : tenTo s.scale = tenTo k * tenTo (s.scale - k) := by
    rw [← tenTo_add, Nat.add_sub_cancel' hk]
  have hscaled : m * tenTo (s.scale - k) ≤ s.mantissa := by
    rw [value, div_le_div_iff₀ (tenTo_cast_pos _) (tenTo_cast_pos _), hten] at hle
    have hpos := tenTo_cast_pos k
    have hle' : (m : ℚ) * tenTo (s.scale - k) ≤ s.mantissa := by
      refine le_of_mul_le_mul_left ?_ hpos
      calc (tenTo k : ℚ) * (m * tenTo (s.scale - k))
          = m * (tenTo k * tenTo (s.scale - k) : Nat) := by push_cast; ring
        _ ≤ s.mantissa * tenTo k := hle
        _ = tenTo k * s.mantissa := mul_comm _ _
    exact_mod_cast hle'
  have hgrows : m * 1 ≤ m * tenTo (s.scale - k) :=
    Int.mul_le_mul_of_nonneg_left (Int.natCast_pos.mpr (tenTo_pos _)) hm
  refine s.mantissa_fits.toward_zero (fun _ => ⟨hm, by omega⟩) (fun hneg => ?_)
  omega

theorem mantissaAt_nonneg {d : Decimal} (h : 0 ≤ d.value) (s : Nat) : 0 ≤ d.mantissaAt s := by
  have hm : 0 ≤ d.mantissa := by
    rw [value_nonneg_iff, isNegative, decide_eq_false_iff_not] at h
    omega
  exact Int.mul_nonneg hm (Int.natCast_nonneg _)

/-- Two decimals that are not negative have a sum wherever some decimal with no fewer digits after
the point is not below it. -/
theorem exists_add {a b s : Decimal} (ha : 0 ≤ a.value) (hb : 0 ≤ b.value)
    (hscale : commonScale a b ≤ s.scale) (hle : a.value + b.value ≤ s.value) :
    ∃ c, a.add b = .ok c := by
  have hat : (a.mantissaAt (commonScale a b) : ℚ) / tenTo (commonScale a b) = a.value :=
    mantissaAt_value (Nat.le_max_left _ _)
  have hbt : (b.mantissaAt (commonScale a b) : ℚ) / tenTo (commonScale a b) = b.value :=
    mantissaAt_value (Nat.le_max_right _ _)
  have ha' := mantissaAt_nonneg ha (commonScale a b)
  have hb' := mantissaAt_nonneg hb (commonScale a b)
  have hx : Fits (a.mantissaAt (commonScale a b)) :=
    fits_of_le_value hscale ha' (by rw [hat]; linarith)
  have hy : Fits (b.mantissaAt (commonScale a b)) :=
    fits_of_le_value hscale hb' (by rw [hbt]; linarith)
  have hsum : Fits (a.mantissaAt (commonScale a b) + b.mantissaAt (commonScale a b)) := by
    refine fits_of_le_value hscale (Int.add_nonneg ha' hb') ?_
    rw [Int.cast_add, add_div, hat, hbt]
    exact hle
  exact ⟨⟨_, _, hsum, commonScale_le a b⟩, add_eq_ok_iff.mpr ⟨hx, hy, rfl, rfl⟩⟩

/-! ## Running sums -/

theorem sumFrom_cons_eq_ok_iff {start d s : Decimal} {r : List Decimal} :
    sumFrom start (d :: r) = .ok s ↔ ∃ c, start.add d = .ok c ∧ sumFrom c r = .ok s := by
  rw [sumFrom]
  cases start.add d <;> simp

/-- From a start and decimals that are not negative, the running sum comes to a decimal exactly if
that is the total at the largest scale. -/
theorem sumFrom_eq_ok_iff {start s : Decimal} {ds : List Decimal} (hstart : 0 ≤ start.value)
    (hds : ∀ d ∈ ds, 0 ≤ d.value) :
    sumFrom start ds = .ok s ↔
      s.scale = max start.scale (largestScale ds) ∧ s.value = start.value + total ds := by
  induction ds generalizing start with
  | nil =>
    rw [sumFrom, Except.ok.injEq, eq_comm, eq_iff_scale_value]
    simp
  | cons d r ih =>
    obtain ⟨hd, hr⟩ := List.forall_mem_cons.mp hds
    -- The sum with one more decimal is as good a start for the rest.
    have hrest : ∀ c, start.add d = .ok c → (sumFrom c r = .ok s ↔
        s.scale = max start.scale (largestScale (d :: r)) ∧
          s.value = start.value + total (d :: r)) := by
      intro c hc
      obtain ⟨hvalue, hscale, -⟩ := gives_add start d c hc
      have hc0 : 0 ≤ c.value := hvalue ▸ add_nonneg hstart hd
      rw [ih hc0 hr, hvalue, hscale, commonScale, largestScale_cons, total_cons, Nat.max_assoc,
        add_assoc]
    rw [sumFrom_cons_eq_ok_iff]
    constructor
    · rintro ⟨c, hc, hsum⟩
      exact (hrest c hc).mp hsum
    · rintro ⟨hscale, hvalue⟩
      have hcommon : commonScale start d ≤ s.scale := by
        rw [hscale, largestScale_cons, ← Nat.max_assoc]
        exact Nat.le_max_left _ _
      have hle : start.value + d.value ≤ s.value := by
        rw [hvalue, total_cons, ← add_assoc]
        exact le_add_of_nonneg_right (total_nonneg hr)
      obtain ⟨c, hc⟩ := exists_add hstart hd hcommon hle
      exact ⟨c, hc, (hrest c hc).mpr ⟨hscale, hvalue⟩⟩

theorem sum_eq_ok_iff {ds : List Decimal} {s : Decimal} (h : ∀ d ∈ ds, 0 ≤ d.value) :
    sum ds = .ok s ↔ s.scale = largestScale ds ∧ s.value = total ds := by
  rw [sum, sumFrom_eq_ok_iff (value_zero.ge) h, value_zero, zero_add]
  rfl

theorem add_error {a b : Decimal} {e : Fault} (h : a.add b = .error e) :
    e = .overflow "decimal add" := by
  unfold add orOverflow at h
  split at h
  · cases h
  · exact (Except.error.inj h).symm

/-- A sum is refused for one reason only. -/
theorem sumFrom_error {start : Decimal} {ds : List Decimal} {e : Fault}
    (h : sumFrom start ds = .error e) : e = .overflow "decimal add" := by
  induction ds generalizing start with
  | nil => cases h
  | cons d r ih =>
    unfold sumFrom at h
    split at h
    · exact ih h
    · next e' he' =>
      obtain rfl := Except.error.inj h
      exact add_error he'

/-! ## The total at the largest scale -/

theorem total_eq_mantissas {ds : List Decimal} {s : Nat} (h : ∀ d ∈ ds, d.scale ≤ s) :
    total ds = ((ds.map fun d => d.mantissaAt s).sum : Int) / tenTo s := by
  induction ds with
  | nil => simp
  | cons d r ih =>
    obtain ⟨hd, hr⟩ := List.forall_mem_cons.mp h
    rw [total_cons, ih hr, ← mantissaAt_value hd, List.map_cons, List.sum_cons, Int.cast_add,
      add_div]

/-- Some decimal is the total at the largest scale exactly if the mantissa fits that it would have
there. -/
theorem exists_total_iff {ds : List Decimal} (h : ∀ d ∈ ds, 0 ≤ d.value) :
    (∃ s : Decimal, s.scale = largestScale ds ∧ s.value = total ds) ↔
      total ds * tenTo (largestScale ds) ≤ (Int128.bound - 1 : Int) := by
  have hten := tenTo_cast_ne_zero (largestScale ds)
  constructor
  · rintro ⟨s, hscale, hvalue⟩
    have hlt := s.mantissa_fits.2
    rw [← hvalue, value, hscale, div_mul_cancel₀ _ hten]
    exact_mod_cast Int.le_sub_one_of_lt hlt
  · intro hle
    have htotal : total ds = _ := total_eq_mantissas scale_le_largestScale
    rw [htotal, div_mul_cancel₀ _ hten, Int.cast_le] at hle
    have hpos : 0 ≤ (ds.map fun d => d.mantissaAt (largestScale ds)).sum := by
      refine List.sum_nonneg fun x hx => ?_
      obtain ⟨d, hd, rfl⟩ := List.mem_map.mp hx
      exact mantissaAt_nonneg (h d hd) _
    have hfits : Fits (ds.map fun d => d.mantissaAt (largestScale ds)).sum := by
      unfold Fits
      unfold Int128.bound at *
      omega
    exact ⟨⟨_, _, hfits, largestScale_le ds⟩, rfl, htotal.symm⟩

/-! ## Sums of decimals that are not negative -/

/-- Whether a result is the sum of decimals: it is given exactly if the total at their largest
scale is at most the largest number of the word, and then it is the total at that scale. Otherwise
it is an overflow. -/
structure IsSumOf (r : Except Fault Decimal) (ds : List Decimal) : Prop where
  isOk_iff : (∃ s, r = .ok s) ↔ total ds * tenTo (largestScale ds) ≤ (Int128.bound - 1 : Int)
  exact : ∀ s, r = .ok s → s.value = total ds ∧ s.scale = largestScale ds
  overflow : ∀ e, r = .error e → e = .overflow "decimal add"

theorem isSumOf_sum {ds : List Decimal} (h : ∀ d ∈ ds, d.isNegative = false) :
    IsSumOf (sum ds) ds := by
  have hvalue : ∀ d ∈ ds, 0 ≤ d.value := fun d hd => value_nonneg_iff.mpr (h d hd)
  constructor
  · simp only [sum_eq_ok_iff hvalue]
    exact exists_total_iff hvalue
  · exact fun s hs => ((sum_eq_ok_iff hvalue).mp hs).symm
  · exact fun e he => sumFrom_error he

theorem IsSumOf.eq_of_perm {r r' : Except Fault Decimal} {ds ds' : List Decimal}
    (h : IsSumOf r ds) (h' : IsSumOf r' ds') (hperm : ds.Perm ds') : r' = r := by
  have htotal : total ds' = total ds := ((hperm.map value).sum_eq).symm
  have hscale : largestScale ds' = largestScale ds := ((hperm.map scale).foldr_eq 0).symm
  have hiff : (∃ s, r' = .ok s) ↔ ∃ s, r = .ok s := by
    rw [h.isOk_iff, h'.isOk_iff, htotal, hscale]
  cases r with
  | ok s =>
    obtain ⟨s', rfl⟩ := hiff.mpr ⟨s, rfl⟩
    obtain ⟨hv, hs⟩ := h.exact s rfl
    obtain ⟨hv', hs'⟩ := h'.exact s' rfl
    rw [Except.ok.injEq, eq_iff_scale_value, hv, hs, hv', hs', htotal, hscale]
    exact ⟨rfl, rfl⟩
  | error e =>
    cases r' with
    | ok s' =>
      obtain ⟨s, hs⟩ := hiff.mp ⟨s', rfl⟩
      cases hs
    | error e' => rw [h.overflow e rfl, h'.overflow e' rfl]

/-- The sum of decimals none of which is negative is their total at the largest scale, and it is
given exactly if that fits. It does not depend on the order, also not in failing. The totals of a
delta whose balances are not negative are such sums. -/
theorem sum_exact :
    (∀ ds : List Decimal, (∀ d ∈ ds, d.isNegative = false) →
      IsSumOf (sum ds) ds ∧ ∀ ds', ds.Perm ds' → sum ds' = sum ds) ∧
    ∀ δ : Delta,
      (∀ c ∈ δ.changes.values, c.before.isNegative = false ∧ c.after.isNegative = false) →
      IsSumOf δ.inputs (δ.changes.values.map Change.before) ∧
        IsSumOf δ.outputs (δ.changes.values.map Change.after) := by
  constructor
  · intro ds h
    refine ⟨isSumOf_sum h, fun ds' hperm => ?_⟩
    exact (isSumOf_sum h).eq_of_perm (isSumOf_sum fun d hd => h d (hperm.mem_iff.mpr hd)) hperm
  · intro δ h
    constructor
    · exact isSumOf_sum (List.forall_mem_map.mpr fun c hc => (h c hc).1)
    · exact isSumOf_sum (List.forall_mem_map.mpr fun c hc => (h c hc).2)

/-- Zero with as many digits after the point as there can be. -/
def preciseZero : Decimal := ⟨0, 38, Int128.fits_zero, Nat.le_refl maxPrecision⟩

/-- A delta that moves a one from alice to bob. -/
def handedOne : Delta :=
  ⟨.ofList [("alice", ⟨.ofInt64 1, preciseZero⟩), ("bob", ⟨preciseZero, .ofInt64 1⟩)]⟩

/-- A one can be brought to the scale of such a zero and a two cannot, whichever comes first. -/
theorem sum_exact_preciseZero :
    (∀ d ∈ [.ofInt64 1, preciseZero], d.isNegative = false) ∧
    (∃ s, sum [.ofInt64 1, preciseZero] = .ok s ∧ sum [preciseZero, .ofInt64 1] = .ok s ∧
      s.value = 1 ∧ s.scale = 38) ∧
    (∀ d ∈ [.ofInt64 2, preciseZero], d.isNegative = false) ∧
    (¬ ∃ s, sum [.ofInt64 2, preciseZero] = .ok s) ∧
    (¬ ∃ s, sum [preciseZero, .ofInt64 2] = .ok s) ∧
    (∀ c ∈ handedOne.changes.values, c.before.isNegative = false ∧ c.after.isNegative = false) ∧
    (∃ s, handedOne.inputs = .ok s ∧ s.value = total [.ofInt64 1, preciseZero]) ∧
    ∃ s, handedOne.outputs = .ok s ∧ s.value = total [preciseZero, .ofInt64 1] := by
  obtain ⟨hsum, hdelta⟩ := sum_exact
  have htotal : ∀ n, total [.ofInt64 n, preciseZero] = (n.toInt : ℚ) := by
    intro n
    simp [total, value, preciseZero, Decimal.ofInt64]
  have hone : ∀ d ∈ [.ofInt64 1, preciseZero], d.isNegative = false := by decide
  have htwo : ∀ d ∈ [.ofInt64 2, preciseZero], d.isNegative = false := by decide
  have hhanded : ∀ c ∈ handedOne.changes.values,
      c.before.isNegative = false ∧ c.after.isNegative = false := by
    decide
  obtain ⟨hsumOne, hpermOne⟩ := hsum _ hone
  obtain ⟨hsumTwo, hpermTwo⟩ := hsum _ htwo
  obtain ⟨hinputs, houtputs⟩ := hdelta _ hhanded
  have hfits : ∃ s, sum [.ofInt64 1, preciseZero] = .ok s := by
    rw [hsumOne.isOk_iff, htotal]
    have hle : (1 : Int64).toInt * (tenTo 38 : Int) ≤ Int128.bound - 1 := by decide
    exact_mod_cast hle
  have hover : ¬ ∃ s, sum [.ofInt64 2, preciseZero] = .ok s := by
    rw [hsumTwo.isOk_iff, htotal]
    have hlt : Int128.bound - 1 < (2 : Int64).toInt * (tenTo 38 : Int) := by decide
    exact not_le.mpr (by exact_mod_cast hlt)
  obtain ⟨s, hs⟩ := hfits
  obtain ⟨hvalue, hscale⟩ := hsumOne.exact s hs
  rw [htotal] at hvalue
  have hswapOne : sum [preciseZero, .ofInt64 1] = .ok s := by
    rw [hpermOne _ (.swap _ _ []), hs]
  have hswapTwo : ¬ ∃ s, sum [preciseZero, .ofInt64 2] = .ok s := by
    rw [hpermTwo _ (.swap _ _ [])]
    exact hover
  exact ⟨hone, ⟨s, hs, hswapOne, hvalue, hscale⟩, htwo, hover, hswapTwo, hhanded,
    ⟨s, hs, (hinputs.exact s hs).1⟩, s, hswapOne, (houtputs.exact s hswapOne).1⟩

end LedgerGate.Decimal

import LedgerGate.Proofs.Decimal.Arithmetic

/-!
# The order of decimals

Comparing the parts before the point, and then those after it, compares the values
(`Decimal.order_eq_compare`). The digits after the point are brought to a common scale for it, and
stay below one there, so that no number on the way leaves the word (`Decimal.ComparesInRange`).
-/

namespace LedgerGate.Decimal

open Int128 (Fits)

/-! ## Quotients and remainders in order -/

/-- Of two numbers the lesser has the lesser quotient, or the same quotient and the lesser
remainder. -/
theorem lt_of_divided {m n k : Int} (hk : 0 < k) (h : m < n) :
    m.tdiv k < n.tdiv k ∨ m.tdiv k = n.tdiv k ∧ m.tmod k < n.tmod k := by
  rcases lt_or_eq_of_le (Int.tdiv_le_tdiv hk h.le) with hquotient | hquotient
  · exact .inl hquotient
  · have hm := Int.mul_tdiv_add_tmod m k
    have hn := Int.mul_tdiv_add_tmod n k
    rw [hquotient] at hm
    exact .inr ⟨hquotient, by omega⟩

theorem compare_divided {m n k : Int} (hk : 0 < k) :
    (compare (m.tdiv k) (n.tdiv k)).then (compare (m.tmod k) (n.tmod k)) = compare m n := by
  rcases lt_trichotomy m n with h | rfl | h
  · rw [compare_lt_iff_lt.mpr h, Ordering.then_eq_lt, compare_lt_iff_lt, compare_eq_iff_eq,
      compare_lt_iff_lt]
    exact lt_of_divided hk h
  · simp
  · rw [compare_gt_iff_gt.mpr h, Ordering.then_eq_gt, compare_gt_iff_gt, compare_eq_iff_eq,
      compare_gt_iff_gt, eq_comm]
    exact lt_of_divided hk h

/-! ## The order of values -/

theorem compare_mantissaAt {a b : Decimal} {s : Nat} (ha : a.scale ≤ s) (hb : b.scale ≤ s) :
    compare (a.mantissaAt s) (b.mantissaAt s) = compare a.value b.value := by
  have hmono : StrictMono fun m : Int => (m : ℚ) / tenTo s := fun m n h =>
    div_lt_div_of_pos_right (Int.cast_lt.mpr h) (tenTo_cast_pos s)
  rw [← mantissaAt_value ha, ← mantissaAt_value hb, ← cmp_eq_compare, ← cmp_eq_compare]
  exact (hmono.cmp_map_eq _ _).symm

/-- Decimals are in the order of their values. -/
theorem order_eq_compare (a b : Decimal) : a.order b = compare a.value b.value := by
  have ha : a.scale ≤ commonScale a b := Nat.le_max_left _ _
  have hb : b.scale ≤ commonScale a b := Nat.le_max_right _ _
  have hpos : (0 : Int) < tenTo (commonScale a b) := Int.natCast_pos.mpr (tenTo_pos _)
  rw [order, whole_eq_tdiv a ha, whole_eq_tdiv b hb, fractionAt_eq_tmod a ha,
    fractionAt_eq_tmod b hb, compare_divided hpos, compare_mantissaAt ha hb]

instance : Std.TransCmp order where
  eq_swap := by
    intro a b
    rw [order_eq_compare, order_eq_compare]
    exact Std.OrientedCmp.eq_swap
  isLE_trans := by
    intro a b c hab hbc
    rw [order_eq_compare] at hab hbc ⊢
    exact Std.TransCmp.isLE_trans hab hbc

theorem sameValue_iff_normalize {a b : Decimal} : a.sameValue b = true ↔
    a.normalize.mantissa = b.normalize.mantissa ∧ a.normalize.scale = b.normalize.scale := by
  rw [sameValue_iff, ← normalize_eq_iff, Decimal.ext_iff]

/-! ## Numbers on the way -/

/-- The digits after the point stay below one at any scale. -/
theorem natAbs_fractionAt_lt (d : Decimal) {s : Nat} (h : d.scale ≤ s) :
    (d.fractionAt s).natAbs < tenTo s := by
  rw [fractionAt_eq_tmod d h, Int.natAbs_tmod, Int.natAbs_natCast]
  exact Nat.mod_lt _ (tenTo_pos s)

/-- Whether all that is worked out of a decimal to compare it at a scale is in range: the
difference of the scales, the powers of ten, the quotient and the remainder, and the digits after
the point at that scale. -/
structure ComparesInRange (d : Decimal) (s : Nat) : Prop where
  difference : d.scale ≤ s
  powers : ∀ n ≤ s, Fits (tenTo n)
  whole : Fits d.whole
  remainder : Fits (d.mantissa.tmod (tenTo d.scale))
  fraction : Fits (d.fractionAt s)

theorem comparesInRange (d : Decimal) {s : Nat} (hd : d.scale ≤ s) (hs : s ≤ 38) :
    d.ComparesInRange s := by
  have hpowers : ∀ n ≤ s, Fits (tenTo n) := fun n hn => Int128.fits_tenTo (Nat.le_trans hn hs)
  constructor
  · exact hd
  · exact hpowers
  · exact d.mantissa_fits.tdiv (Int.natCast_pos.mpr (tenTo_pos _))
  · exact d.mantissa_fits.tmod _
  · have hlt := natAbs_fractionAt_lt d hd
    have hbound := (hpowers s le_rfl).2
    exact Fits.of_natAbs_lt (by omega)

/-- Decimals are ordered by value, without a number on the way that leaves its range, and they
are the same exactly if they have one normal form. -/
theorem order_numeric (a b : Decimal) :
    a.order b = compare a.value b.value ∧
      a.ComparesInRange (commonScale a b) ∧ b.ComparesInRange (commonScale a b) ∧
      (a.sameValue b = true ↔
        a.normalize.mantissa = b.normalize.mantissa ∧ a.normalize.scale = b.normalize.scale) ∧
      Std.TransCmp order :=
  ⟨order_eq_compare a b,
    comparesInRange a (Nat.le_max_left _ _) (commonScale_le a b),
    comparesInRange b (Nat.le_max_right _ _) (commonScale_le a b),
    sameValue_iff_normalize, inferInstance⟩

end LedgerGate.Decimal

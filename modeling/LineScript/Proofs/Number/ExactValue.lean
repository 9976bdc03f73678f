import LineScript.Proofs.Number.Negation

/-!
# Exact values

A finite double is a rational number. Doubles are ordered as these numbers are, and the conversion
to a whole number cuts off what follows the point.

  * `Number.value? x`: the exact value of a double. Infinities and NaN have none.
  * `Decimal.canonical_of_unpack`: the mantissa and exponent of every double are in normal form.
  * `Number.lt_iff`, `Number.le_iff`, `Number.beq_iff`: comparisons of doubles are comparisons of
    their exact values.
  * `Number.floor_toUInt64`: the whole part of a double.

**Order.** Comparing two doubles compares the exponents first. That is right only because mantissas
are in normal form: a greater exponent means a greater number even with the least mantissa.
-/

namespace LineScript

open Float.Model Float.Model.UnpackedFloat

namespace Decimal

/-! ### Normal forms -/

/-- The mantissa and exponent of a double are in normal form. -/
theorem canonical_of_unpack {x : Float} {s : Sign} {m : Nat} {e : Int} {hpos : 0 < m}
    (h : x.toModel.unpack = .finite s m e hpos) :
    ∃ y : Binary, y.Canonical ∧ y.mantissa = m ∧ y.exponent = e := by
  have hfinite : x.isFinite = true := by
    show x.toModel.unpack.isFinite = true
    rw [h]
    rfl
  -- without the sign bit, the bits are those of a positive number
  have hbits (b : BitVec Format.binary64.numBits) (hlt : b.toNat < 2047 * 2 ^ 52) (s : Sign)
      (h : UnpackedFloat.unpack .binary64 b = .finite s m e hpos) :
      ∃ y : Binary, y.Canonical ∧ y.mantissa = m ∧ y.exponent = e := by
    have hne : b.toNat ≠ 0 := by
      intro hzero
      obtain rfl : b = 0#64 := BitVec.eq_of_toNat_eq hzero
      cases h
    rw [unpack_eq_ofBits hne hlt] at h
    injection h with _ hmantissa hexponent
    exact ⟨_, Binary.ofBits_canonical hne hlt, hmantissa, hexponent⟩
  rcases Number.unsigned_or_signed hfinite with hunsigned | hsigned
  · exact hbits _ hunsigned.lt_infinity s h
  · obtain ⟨b, -, hlt, hunpack⟩ := hsigned.exists_opposite
    rw [hunpack] at h
    have hopposite : UnpackedFloat.unpack .binary64 b = (UnpackedFloat.finite s m e hpos).neg := by
      rw [← h, unpacked_neg_neg]
    exact hbits b hlt _ hopposite

/-! ### Order -/

/-- Of two numbers in normal form, the one with the smaller exponent is smaller, or the one with the
smaller mantissa if the exponents are the same. -/
theorem Binary.Canonical.value_lt {x y : Binary} (hx : x.Canonical) (hy : y.Canonical)
    (h : x.exponent < y.exponent ∨ x.exponent = y.exponent ∧ x.mantissa < y.mantissa) :
    (x.mantissa : ℚ) * 2 ^ x.exponent < y.mantissa * 2 ^ y.exponent := by
  have hpow : (0 : ℚ) < 2 ^ x.exponent := by positivity
  rcases h with hexponent | ⟨hexponent, hmantissa⟩
  · have hnormal : 2 ^ 52 ≤ y.mantissa := hy.normal.resolve_right (by have := hx.least; omega)
    have hlt : (x.mantissa : ℚ) < 2 ^ 53 := by exact_mod_cast hx.lt
    have hle : (2 : ℚ) ^ 52 ≤ y.mantissa := by exact_mod_cast hnormal
    calc (x.mantissa : ℚ) * 2 ^ x.exponent < 2 ^ 53 * 2 ^ x.exponent :=
          mul_lt_mul_of_pos_right hlt hpow
      _ = 2 ^ 52 * 2 ^ (x.exponent + 1) := by
          rw [zpow_add₀ two_ne_zero, zpow_one]
          ring
      _ ≤ 2 ^ 52 * 2 ^ y.exponent :=
          mul_le_mul_of_nonneg_left (zpow_le_zpow_right₀ one_le_two hexponent) (by positivity)
      _ ≤ y.mantissa * 2 ^ y.exponent := mul_le_mul_of_nonneg_right hle (by positivity)
  · rw [← hexponent]
    exact mul_lt_mul_of_pos_right (by exact_mod_cast hmantissa) hpow

/-- Comparing exponents, then mantissas, compares the numbers. -/
theorem Binary.Canonical.compare_eq {x y : Binary} (hx : x.Canonical) (hy : y.Canonical) :
    (compare x.exponent y.exponent).then (compare x.mantissa y.mantissa) =
      compare ((x.mantissa : ℚ) * 2 ^ x.exponent) (y.mantissa * 2 ^ y.exponent) := by
  rcases lt_trichotomy x.exponent y.exponent with hlt | heq | hgt
  · rw [compare_lt_iff_lt.mpr hlt, compare_lt_iff_lt.mpr (hx.value_lt hy (.inl hlt)),
      Ordering.lt_then]
  · rw [compare_eq_iff_eq.mpr heq, Ordering.eq_then]
    rcases lt_trichotomy x.mantissa y.mantissa with hlt | hsame | hgt
    · rw [compare_lt_iff_lt.mpr hlt, compare_lt_iff_lt.mpr (hx.value_lt hy (.inr ⟨heq, hlt⟩))]
    · rw [heq, hsame, compare_eq_iff_eq.mpr rfl, compare_eq_iff_eq.mpr rfl]
    · rw [compare_gt_iff_gt.mpr hgt,
        compare_gt_iff_gt.mpr (hy.value_lt hx (.inr ⟨heq.symm, hgt⟩))]
  · rw [compare_gt_iff_gt.mpr hgt, compare_gt_iff_gt.mpr (hy.value_lt hx (.inl hgt)),
      Ordering.gt_then]

/-! ### Whole parts -/

/-- Brought to a smaller exponent, a mantissa keeps its value. -/
theorem shiftLeft_value (m : Nat) {e t : Int} (hle : t ≤ e) :
    ((m <<< (e - t).toNat : Nat) : ℚ) * 2 ^ t = m * 2 ^ e := by
  obtain ⟨n, rfl⟩ : ∃ n : Nat, e = t + n := ⟨(e - t).toNat, by omega⟩
  have hamount : (t + n - t).toNat = n := by omega
  rw [hamount, Nat.shiftLeft_eq, zpow_add₀ two_ne_zero, zpow_natCast]
  push_cast
  ring

/-- A positive number is cut off after the point. -/
theorem roundToInt_floor (m : Nat) (e : Int) :
    ∃ k : Nat, roundToInt .positive m e = k ∧ (k : ℚ) ≤ m * 2 ^ e ∧ m * 2 ^ e < k + (1 : ℚ) := by
  -- first the exponent is brought down to zero or below, then up to zero
  obtain ⟨t, ht⟩ : ∃ t, t = e - (e - 0).toNat := ⟨_, rfl⟩
  have hamount : (e - 0).toNat = (e - t).toNat := by omega
  have hexact : Represents (.ofMantissaAndAccuracy (m <<< (e - t).toNat) .exact)
      ((m * 2 ^ e : ℚ) / 2 ^ t) := by
    rw [← shiftLeft_value m (by omega : t ≤ e), mul_div_cancel_right₀ _ (by positivity)]
    exact represents_exact _
  obtain ⟨em, hshift, hem⟩ := shiftToExponent_represents (by omega : t ≤ 0) hexact
  rw [zpow_zero, div_one] at hem
  refine ⟨em.mantissa, ?_, hem.floor⟩
  unfold roundToInt decreaseExponent
  dsimp only
  rw [← ht, hamount, hshift]
  rfl

end Decimal

namespace Number

open Decimal

variable {x y : Float} {p q : ℚ}

/-! ### Exact values -/

/-- The exact value of a number. Infinities and NaN have none. -/
def value? (x : Float) : Option ℚ :=
  match x.toModel.unpack with
  | .finite .positive m e _ => some (m * 2 ^ e)
  | .finite .negative m e _ => some (-(m * 2 ^ e))
  | .zero _ => some 0
  | .infinity _ | .notANumber => none

/-- The forms of a double with an exact value: zero, and a mantissa and exponent with a sign. -/
theorem value?_cases (h : value? x = some q) :
    (∃ s, x.toModel.unpack = .zero s ∧ q = 0) ∨
    (∃ y : Binary, ∃ hy : y.Canonical,
      x.toModel.unpack = .finite .positive y.mantissa y.exponent hy.pos ∧
        q = y.mantissa * 2 ^ y.exponent) ∨
    (∃ y : Binary, ∃ hy : y.Canonical,
      x.toModel.unpack = .finite .negative y.mantissa y.exponent hy.pos ∧
        q = -(y.mantissa * 2 ^ y.exponent)) := by
  unfold value? at h
  cases hunpack : x.toModel.unpack with
  | notANumber => rw [hunpack] at h; cases h
  | infinity s => rw [hunpack] at h; cases h
  | zero s =>
    rw [hunpack] at h
    exact .inl ⟨s, rfl, (Option.some.inj h).symm⟩
  | finite s m e hpos =>
    obtain ⟨y, hy, rfl, rfl⟩ := canonical_of_unpack hunpack
    rw [hunpack] at h
    cases s with
    | positive => exact .inr (.inl ⟨y, hy, rfl, (Option.some.inj h).symm⟩)
    | negative => exact .inr (.inr ⟨y, hy, rfl, (Option.some.inj h).symm⟩)

/-- Both zeros have the value zero, and a fraction has a value of its own. -/
example : value? (-0) = some 0 ∧ value? (-2.5) = some (-5 / 2) := by decide +kernel

/-! ### Order -/

theorem compare_neg_neg (p q : ℚ) : compare (-p) (-q) = (compare p q).swap := by
  rcases lt_trichotomy p q with hlt | rfl | hgt
  · rw [compare_lt_iff_lt.mpr hlt, compare_gt_iff_gt.mpr (neg_lt_neg hlt)]
    rfl
  · rw [compare_eq_iff_eq.mpr rfl, compare_eq_iff_eq.mpr rfl]
    rfl
  · rw [compare_gt_iff_gt.mpr hgt, compare_lt_iff_lt.mpr (neg_lt_neg hgt)]
    rfl

/-- Doubles are ordered as their exact values. -/
theorem compare_eq (hx : value? x = some p) (hy : value? y = some q) :
    x.toModel.unpack.compare y.toModel.unpack = some (compare p q) := by
  have hpositive {y : Binary} (hy : y.Canonical) : (0 : ℚ) < y.mantissa * 2 ^ y.exponent := by
    have hmantissa : (0 : ℚ) < y.mantissa := by exact_mod_cast hy.pos
    positivity
  -- the signs decide, except between two positive or two negative numbers
  rcases value?_cases hx with ⟨s, hux, rfl⟩ | ⟨a, ha, hux, rfl⟩ | ⟨a, ha, hux, rfl⟩ <;>
    rcases value?_cases hy with ⟨t, huy, rfl⟩ | ⟨b, hb, huy, rfl⟩ | ⟨b, hb, huy, rfl⟩ <;>
    rw [hux, huy]
  · rw [compare_eq_iff_eq.mpr rfl]
    cases s <;> cases t <;> rfl
  · rw [compare_lt_iff_lt.mpr (hpositive hb)]
    cases s <;> rfl
  · rw [compare_gt_iff_gt.mpr (neg_neg_of_pos (hpositive hb))]
    cases s <;> rfl
  · rw [compare_gt_iff_gt.mpr (hpositive ha)]
    cases t <;> rfl
  · rw [← ha.compare_eq hb]
    rfl
  · rw [compare_gt_iff_gt.mpr (lt_trans (neg_neg_of_pos (hpositive hb)) (hpositive ha))]
    rfl
  · rw [compare_lt_iff_lt.mpr (neg_neg_of_pos (hpositive ha))]
    cases t <;> rfl
  · rw [compare_lt_iff_lt.mpr (lt_trans (neg_neg_of_pos (hpositive ha)) (hpositive hb))]
    rfl
  · rw [compare_neg_neg, ← ha.compare_eq hb]
    rfl

theorem lt_iff (hx : value? x = some p) (hy : value? y = some q) : x < y ↔ p < q := by
  show decide ((x.toModel.unpack.compare y.toModel.unpack == some .lt) = true) = true ↔ _
  rw [decide_eq_true_eq, compare_eq hx hy, ← compare_lt_iff_lt]
  simp

theorem le_iff (hx : value? x = some p) (hy : value? y = some q) : x ≤ y ↔ p ≤ q := by
  show decide ((x.toModel.unpack.compare y.toModel.unpack).any (·.isLE) = true) = true ↔ _
  rw [decide_eq_true_eq, compare_eq hx hy, ← compare_le_iff_le]
  cases compare p q <;> simp

theorem beq_iff (hx : value? x = some p) (hy : value? y = some q) : (x == y) = true ↔ p = q := by
  show (x.toModel.unpack.compare y.toModel.unpack == some .eq) = true ↔ _
  rw [compare_eq hx hy, ← compare_eq_iff_eq]
  simp

theorem isFinite_of_value? (h : value? x = some q) : x.isFinite = true := by
  show x.toModel.unpack.isFinite = true
  rcases value?_cases h with ⟨s, hunpack, -⟩ | ⟨y, hy, hunpack, -⟩ | ⟨y, hy, hunpack, -⟩ <;>
    rw [hunpack] <;> rfl

/-- Between two finite numbers there are no infinities, and a NaN has no order with anything. -/
theorem exists_value?_of_between {a b : Float} (ha : value? a = some p) (hb : value? b = some q)
    (hlow : a ≤ x) (hhigh : x ≤ b) : ∃ r, value? x = some r := by
  have hlow : (a.toModel.unpack.compare x.toModel.unpack).any (·.isLE) = true :=
    of_decide_eq_true hlow
  have hhigh : (x.toModel.unpack.compare b.toModel.unpack).any (·.isLE) = true :=
    of_decide_eq_true hhigh
  unfold value?
  cases hunpack : x.toModel.unpack with
  | zero s => exact ⟨0, rfl⟩
  | finite s m e hpos =>
    cases s with
    | positive => exact ⟨_, rfl⟩
    | negative => exact ⟨_, rfl⟩
  | notANumber =>
    rw [hunpack] at hhigh
    cases hhigh
  | infinity s =>
    rw [hunpack] at hlow hhigh
    cases s with
    | positive =>
      rcases value?_cases hb with ⟨s, hb, -⟩ | ⟨y, hy, hb, -⟩ | ⟨y, hy, hb, -⟩ <;>
        rw [hb] at hhigh <;> cases hhigh
    | negative =>
      rcases value?_cases ha with ⟨s, ha, -⟩ | ⟨y, hy, ha, -⟩ | ⟨y, hy, ha, -⟩ <;>
        rw [ha] at hlow <;> cases hlow

/-! ### Whole parts -/

/-- A whole part of 64 bits is not clamped. -/
theorem toNat_toUInt64 {k : Nat} (hint : x.toModel.unpack.toInt 0 (UInt64.size - 1) = k)
    (hlt : k < UInt64.size) : x.toUInt64.toNat = k := by
  show (UInt64.ofNatClamp (x.toModel.unpack.toInt 0 (UInt64.size - 1)).toNat).toNat = k
  rw [hint, Int.toNat_natCast]
  unfold UInt64.ofNatClamp
  rw [dif_pos hlt]
  exact UInt64.toNat_ofNatLT

/-- A number that is not negative is cut off after the point, whatever stands for infinities. -/
theorem exists_toInt (hx : value? x = some q) (hlow : 0 ≤ q) (least greatest : Int) :
    ∃ k : Nat, x.toModel.unpack.toInt least greatest = k ∧ (k : ℚ) ≤ q ∧ q < k + 1 := by
  rcases value?_cases hx with ⟨s, hunpack, rfl⟩ | ⟨y, hy, hunpack, rfl⟩ | ⟨y, hy, hunpack, rfl⟩
  · rw [hunpack]
    exact ⟨0, rfl, by norm_num⟩
  · rw [hunpack]
    exact roundToInt_floor y.mantissa y.exponent
  · have hmantissa : (0 : ℚ) < y.mantissa := by exact_mod_cast hy.pos
    have hpositive : (0 : ℚ) < y.mantissa * 2 ^ y.exponent := by positivity
    linarith

/-- The conversion to a whole number cuts off what follows the point. -/
theorem floor_toUInt64 (hx : value? x = some q) (hlow : 0 ≤ q) (hhigh : q < 2 ^ 64) :
    (x.toUInt64.toNat : ℚ) ≤ q ∧ q < x.toUInt64.toNat + 1 := by
  obtain ⟨k, hint, hfloor⟩ := exists_toInt hx hlow 0 (UInt64.size - 1)
  have hless : (k : ℚ) < 2 ^ 64 := lt_of_le_of_lt hfloor.1 hhigh
  have hlt : k < UInt64.size := by exact_mod_cast hless
  rw [toNat_toUInt64 hint hlt]
  exact hfloor

end Number

end LineScript

import LineScript.Proofs.Number.ExactValue

/-!
# Counting with doubles

Whole numbers below `2 ^ 53` are doubles, and on them the operations of a counted loop are those of
whole numbers.

  * `Number.unpack_ofCount`: the double of a count has the digits of the count in its mantissa.
  * `Number.ofCount_succ`: one more is one more.
  * `Number.value?_ofCount`: the exact value of the double of a count is the count.
  * `Number.ofCount_lt_iff`: doubles of counts are ordered as the counts are.

**Exactness.** A sum that is a whole number of at most 53 bits lies in the middle of the interval of
its own double, so rounding has nothing to do.
-/

namespace LineScript

open Float.Model Float.Model.UnpackedFloat

namespace Decimal

variable {x : Binary}

/-! ### Sums -/

/-- A sum holds enough bits if one of the numbers has 53 of them. -/
theorem add_of_near (hx : x.Canonical) {m₁ m₂ : Nat} {e₁ e₂ : Int} (h₁ : 0 < m₁) (h₂ : 0 < m₂)
    (hbits : 2 ^ 52 ≤ m₁) (hq : x.Near (m₁ * 2 ^ e₁ + m₂ * 2 ^ e₂)) :
    add .binary64 (.finite .positive m₁ e₁ h₁) (.finite .positive m₂ e₂ h₂) =
      .finite .positive x.mantissa x.exponent hx.pos := by
  show normalize .binary64 ((m₁ <<< (e₁ - min e₁ e₂).toNat : Nat) +
    (m₂ <<< (e₂ - min e₁ e₂).toNat : Nat)) (min e₁ e₂) .positive = _
  have hvalue₁ := shiftLeft_value m₁ (Int.min_le_left e₁ e₂)
  have hvalue₂ := shiftLeft_value m₂ (Int.min_le_right e₁ e₂)
  have hge : m₁ ≤ m₁ <<< (e₁ - min e₁ e₂).toNat := Nat.le_shiftLeft
  generalize min e₁ e₂ = t at *
  generalize m₁ <<< (e₁ - t).toNat = n₁ at *
  generalize m₂ <<< (e₂ - t).toNat = n₂ at *
  have hcompare : compare ((n₁ : Int) + n₂) 0 = .gt := Int.compare_eq_gt.mpr (by omega)
  have hsum : ((n₁ : Int) + n₂).toNat = n₁ + n₂ := by omega
  have hlog : 52 ≤ (n₁ + n₂).log2 := (Nat.le_log2 (by omega)).mpr (by omega)
  have henough : t ≤ Format.binary64.targetExponent (totalExponent (n₁ + n₂) t) := by
    rw [targetExponent_eq]
    unfold totalExponent
    omega
  have hamount : (t - Format.binary64.targetExponent (totalExponent (n₁ + n₂) t)).toNat = 0 := by
    omega
  unfold UnpackedFloat.normalize
  rw [hcompare, hsum]
  unfold UnpackedFloat.round decreaseExponent
  dsimp only
  rw [hamount, Nat.shiftLeft_zero, Nat.cast_zero, sub_zero]
  apply roundWithAccuracy_of_near hx hq _ henough
  rw [← hvalue₁, ← hvalue₂, ← add_mul, mul_div_cancel_right₀ _ (by positivity)]
  exact_mod_cast represents_exact (n₁ + n₂)

end Decimal

namespace Number

open Decimal

variable {j k n : Nat}

/-! ### The double of a count -/

theorem ofCount_eq_pack (hn : 0 < n) (hlt : n < 2 ^ 53) :
    ofCount n = .ofModel (.pack (.finite .positive (Binary.ofNat n).mantissa
      (Binary.ofNat n).exponent (Binary.ofNat_canonical hn hlt).pos)) := by
  apply float_of_near (Binary.ofNat_canonical hn hlt) false 0
  rw [if_neg Bool.false_ne_true, Nat.cast_zero, zpow_zero, mul_one, ← Binary.ofNat_value n]
  exact Binary.near_self _

theorem unpack_ofCount (hn : 0 < n) (hlt : n < 2 ^ 53) :
    (ofCount n).toModel.unpack = .finite .positive (Binary.ofNat n).mantissa
      (Binary.ofNat n).exponent (Binary.ofNat_canonical hn hlt).pos := by
  have hx := Binary.ofNat_canonical hn hlt
  rw [ofCount_eq_pack hn hlt]
  exact unpack_pack_normal hx.pos (Binary.ofNat_mantissa_bounds hn hlt).1 hx.lt hx.least hx.greatest

theorem unpack_ofCount_zero : (ofCount 0).toModel.unpack = .zero .positive := by
  rfl

/-- A count of at most 53 bits is held without loss. -/
theorem holds_ofCount (hn : 0 < n) (hlt : n < 2 ^ 53) : Holds (ofCount n) n :=
  ⟨_, _, _, unpack_ofCount hn hlt, (Binary.ofNat_mantissa_bounds hn hlt).1, Binary.ofNat_value n⟩

/-- A count of 64 bits is converted to the double nearest to it, which is its own. -/
theorem toFloat_toUInt64 (hn : n < 2 ^ 53) : n.toUInt64.toFloat = ofCount n := by
  by_cases hn0 : n = 0
  · subst hn0
    rfl
  · have hnat : n.toUInt64.toNat = n := UInt64.toNat_ofNat_of_lt' (by
      show n < 2 ^ 64
      omega)
    show Float.ofModel (.pack (UnpackedFloat.ofNat .binary64 n.toUInt64.toNat)) = _
    rw [hnat, ofNat_eq (by omega) hn, ofCount_eq_pack (by omega) hn]

/-! ### Counting -/

/-- One more is one more. -/
theorem ofCount_succ (hlt : n + 1 < 2 ^ 53) : ofCount n + 1 = ofCount (n + 1) := by
  by_cases hn : n = 0
  · subst hn
    decide
  · obtain ⟨m₁, e₁, h₁, hunpack₁, hbits, hvalue₁⟩ := holds_ofCount (by omega : 0 < n) (by omega)
    obtain ⟨m₂, e₂, h₂, hunpack₂, _, hvalue₂⟩ := holds_ofCount Nat.one_pos (by decide)
    have hx := Binary.ofNat_canonical (Nat.succ_pos n) hlt
    have hnear : (Binary.ofNat (n + 1)).Near (m₁ * 2 ^ e₁ + m₂ * 2 ^ e₂) := by
      rw [hvalue₁, hvalue₂, ← Nat.cast_add, ← Binary.ofNat_value (n + 1)]
      exact Binary.near_self _
    show Float.ofModel (.pack (add .binary64 (ofCount n).toModel.unpack
      (ofCount 1).toModel.unpack)) = _
    rw [hunpack₁, hunpack₂, add_of_near hx h₁ h₂ hbits hnear, ofCount_eq_pack (Nat.succ_pos n) hlt]

/-! ### Exact values and order -/

/-- The exact value of the double of a count is the count. -/
theorem value?_ofCount (hn : n < 2 ^ 53) : value? (ofCount n) = some (n : ℚ) := by
  unfold value?
  by_cases hn0 : n = 0
  · subst hn0
    rw [unpack_ofCount_zero, Nat.cast_zero]
  · rw [unpack_ofCount (by omega) hn]
    exact congrArg some (Binary.ofNat_value n)

theorem ofCount_lt_iff (hj : j < 2 ^ 53) (hk : k < 2 ^ 53) : ofCount j < ofCount k ↔ j < k := by
  rw [lt_iff (value?_ofCount hj) (value?_ofCount hk), Nat.cast_lt]

end Number

end LineScript

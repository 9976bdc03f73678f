import Mathlib.Algebra.Order.Field.Power
import Mathlib.Algebra.Order.Field.Rat
import Mathlib.Tactic.FieldSimp
import Mathlib.Tactic.Linarith
import Mathlib.Tactic.Positivity
import LineScript.Decimal.Shortest

/-!
# Rounding to a double

The doubles are numbers `mantissa * 2 ^ exponent`, and a rational number is rounded to the nearest
of them; half way between two, to the one with the even mantissa. So to each double belongs an
interval of rationals that are rounded to it.

  * `Represents em y`: what a mantissa with its round bit and its sticky bit says about the number
    `y`. A shift to the right halves the number.
  * `Binary.Canonical`: the mantissa has 53 bits, or the exponent is the least one.
  * `Binary.Near x q`: the rational `q` lies in the interval of `x`.
  * `roundWithAccuracy_of_near`: a number in the interval is rounded to the double, from every
    mantissa and exponent that hold enough of its bits.

**Below a power of two** the doubles are twice as dense as above it, so the interval of a power of
two is narrower below. A number in that part of it is rounded with one bit more, up to `2 ^ 53`, and
shifted once again.
-/

namespace LineScript.Decimal

open Float.Model Float.Model.UnpackedFloat

/-! ### Mantissas with their residual bits -/

/-- What the bits after a mantissa say about the number that it stands for. -/
def Represents : ExtendedMantissa → ℚ → Prop
  | ⟨m, false, false⟩, y => y = m
  | ⟨m, false, true⟩, y => m < y ∧ y < m + 1 / 2
  | ⟨m, true, false⟩, y => y = m + 1 / 2
  | ⟨m, true, true⟩, y => m + 1 / 2 < y ∧ y < m + 1

/-- The mantissa is the whole part of the number. -/
theorem Represents.floor {em : ExtendedMantissa} {y : ℚ} (h : Represents em y) :
    em.mantissa ≤ y ∧ y < em.mantissa + 1 := by
  obtain ⟨m, roundBit, stickyBit⟩ := em
  cases roundBit <;> cases stickyBit <;> simp only [Represents] at h <;>
    constructor <;> linarith

theorem shiftRightOne_even (k : Nat) (roundBit stickyBit : Bool) :
    ExtendedMantissa.shiftRightOne ⟨2 * k, roundBit, stickyBit⟩ =
      ⟨k, false, roundBit || stickyBit⟩ := by
  have hdiv : 2 * k / 2 = k := by omega
  have hmod : 2 * k % 2 = 0 := by omega
  unfold ExtendedMantissa.shiftRightOne
  simp only [hdiv, hmod]
  rfl

theorem shiftRightOne_odd (k : Nat) (roundBit stickyBit : Bool) :
    ExtendedMantissa.shiftRightOne ⟨2 * k + 1, roundBit, stickyBit⟩ =
      ⟨k, true, roundBit || stickyBit⟩ := by
  have hdiv : (2 * k + 1) / 2 = k := by omega
  have hmod : (2 * k + 1) % 2 = 1 := by omega
  unfold ExtendedMantissa.shiftRightOne
  simp only [hdiv, hmod]
  rfl

/-- A shift to the right halves the number, whatever the bit that is shifted out. -/
theorem Represents.shiftRightOne {em : ExtendedMantissa} {y : ℚ} (h : Represents em y) :
    Represents em.shiftRightOne (y / 2) := by
  obtain ⟨m, roundBit, stickyBit⟩ := em
  obtain ⟨k, rfl | rfl⟩ : ∃ k, m = 2 * k ∨ m = 2 * k + 1 := ⟨m / 2, by omega⟩
  · rw [shiftRightOne_even]
    cases roundBit <;> cases stickyBit <;> simp only [Represents, Bool.or_self, Bool.or_true,
      Bool.or_false] at h ⊢ <;> push_cast at h <;> first | constructor <;> linarith | linarith
  · rw [shiftRightOne_odd]
    cases roundBit <;> cases stickyBit <;> simp only [Represents, Bool.or_self, Bool.or_true,
      Bool.or_false] at h ⊢ <;> push_cast at h <;> first | constructor <;> linarith | linarith

theorem Represents.shiftRight {em : ExtendedMantissa} {y : ℚ} (h : Represents em y) (n : Nat) :
    Represents (em >>> n) (y / 2 ^ n) := by
  show Represents (n.repeat ExtendedMantissa.shiftRightOne em) _
  induction n with
  | zero => simpa [Nat.repeat] using h
  | succ n ih =>
    have hshift : Represents (n.repeat ExtendedMantissa.shiftRightOne em).shiftRightOne
        (y / 2 ^ n / 2) := ih.shiftRightOne
    rw [pow_succ, ← div_div]
    exact hshift

/-- A number is rounded to the nearest whole number, half way between two to the even one. -/
theorem Represents.roundedMantissa_eq {em : ExtendedMantissa} {y : ℚ} (h : Represents em y) {k : Nat}
    (hlow : k - 1 / 2 ≤ y) (hhigh : y ≤ k + 1 / 2)
    (hodd : k % 2 = 1 → k - 1 / 2 < y ∧ y < k + 1 / 2) : em.roundedMantissa = k := by
  obtain ⟨m, roundBit, stickyBit⟩ := em
  -- comparisons of the rationals `k` and `m` are comparisons of whole numbers
  have hle (a b : Nat) (hab : (a : ℚ) < b + 1) : a ≤ b := by
    have hab : a < b + 1 := by exact_mod_cast hab
    omega
  cases roundBit <;> cases stickyBit <;> simp only [Represents] at h
  · have hm := hle m k (by linarith)
    have hk := hle k m (by linarith)
    exact Nat.le_antisymm hm hk
  · have hm := hle m k (by linarith)
    have hk := hle k m (by linarith)
    exact Nat.le_antisymm hm hk
  · -- half way between `m` and `m + 1`
    show m + m % 2 = k
    have hm := hle m k (by linarith)
    have hk := hle k (m + 1) (by push_cast; linarith)
    have heven : k % 2 = 0 := by
      by_contra hne
      obtain ⟨hlow', hhigh'⟩ := hodd (by omega)
      have hm' := hle (m + 1) k (by push_cast; linarith)
      have hk' := hle k m (by linarith)
      omega
    omega
  · show m + 1 = k
    have hm := hle (m + 1) k (by push_cast; linarith)
    have hk := hle k (m + 1) (by push_cast; linarith)
    omega

/-- Nothing is known to follow an exact mantissa. -/
theorem represents_exact (m : Nat) : Represents (.ofMantissaAndAccuracy m .exact) m := rfl

/-- The whole part of a fraction, and what its remainder says about the rest. -/
theorem represents_fraction (a : Nat) {b : Nat} (hb : 0 < b) :
    Represents (.ofMantissaAndAccuracy (a / b) (accuracyOfFraction (a % b) b)) (a / b) := by
  have hb' : (0 : ℚ) < b := by exact_mod_cast hb
  have hlt : ((a % b : Nat) : ℚ) < b := by exact_mod_cast Nat.mod_lt a hb
  have hparts : (a : ℚ) / b = (a / b : Nat) + (a % b : Nat) / b := by
    have hdiv : (b : ℚ) * (a / b : Nat) + (a % b : Nat) = a := by exact_mod_cast Nat.div_add_mod a b
    field_simp
    linarith
  rw [hparts]
  unfold accuracyOfFraction
  split
  · next hzero => simp [ExtendedMantissa.ofMantissaAndAccuracy, Represents, hzero]
  · next hne =>
    have hpos : (0 : ℚ) < (a % b : Nat) := by exact_mod_cast Nat.pos_of_ne_zero hne
    -- the remainder against half of the divisor
    cases hcompare : compare (2 * (a % b)) b with
    | lt =>
      have hhalf : 2 * ((a % b : Nat) : ℚ) < b := by exact_mod_cast Nat.compare_eq_lt.mp hcompare
      have hfrac : ((a % b : Nat) : ℚ) / b < 1 / 2 := by
        rw [div_lt_iff₀ hb']
        linarith
      have hsome : 0 < ((a % b : Nat) : ℚ) / b := div_pos hpos hb'
      exact ⟨by linarith, by linarith⟩
    | eq =>
      have hhalf : 2 * ((a % b : Nat) : ℚ) = b := by exact_mod_cast Nat.compare_eq_eq.mp hcompare
      have hfrac : ((a % b : Nat) : ℚ) / b = 1 / 2 := by
        rw [div_eq_iff hb'.ne']
        linarith
      show _ = _
      rw [hfrac]
    | gt =>
      have hhalf : (b : ℚ) < 2 * (a % b : Nat) := by exact_mod_cast Nat.compare_eq_gt.mp hcompare
      have hfrac : 1 / 2 < ((a % b : Nat) : ℚ) / b := by
        rw [lt_div_iff₀ hb']
        linarith
      have hless : ((a % b : Nat) : ℚ) / b < 1 := by
        rw [div_lt_one hb']
        exact hlt
      exact ⟨by linarith, by linarith⟩

/-! ### Doubles and their intervals -/

namespace Binary

/-- The mantissa has 53 bits, or the exponent is the least one. -/
structure Canonical (x : Binary) : Prop where
  /-- The number is not zero. -/
  pos : 0 < x.mantissa
  /-- The mantissa has at most 53 bits. -/
  lt : x.mantissa < 2 ^ 53
  /-- The least exponent. -/
  least : -1074 ≤ x.exponent
  /-- The greatest exponent. -/
  greatest : x.exponent ≤ 971
  /-- Only at the least exponent the mantissa may have fewer bits. -/
  normal : 2 ^ 52 ≤ x.mantissa ∨ x.exponent = -1074
  /-- The doubles are denser below powers of two, except at the least exponent. -/
  narrow : x.narrowBelow = true ↔ x.mantissa = 2 ^ 52 ∧ -1074 < x.exponent

/-- How far the interval reaches below the number, in units of its last bit. -/
def below (x : Binary) : ℚ :=
  if x.narrowBelow then 1 / 4 else 1 / 2

theorem below_pos (x : Binary) : 0 < x.below := by
  unfold below
  split <;> norm_num

theorem below_le (x : Binary) : x.below ≤ 1 / 2 := by
  unfold below
  split <;> norm_num

/-- The rational number lies in the interval that is rounded to the double. The ends of the interval
belong to it if the mantissa is even. -/
structure Near (x : Binary) (q : ℚ) : Prop where
  /-- It is not below the interval. -/
  low : (x.mantissa - x.below) * 2 ^ x.exponent ≤ q
  /-- It is not above the interval. -/
  high : q ≤ (x.mantissa + 1 / 2) * 2 ^ x.exponent
  /-- The ends belong to even mantissas. -/
  odd : x.mantissa % 2 = 1 → (x.mantissa - x.below) * 2 ^ x.exponent < q ∧
    q < (x.mantissa + 1 / 2) * 2 ^ x.exponent

/-- Inside the interval the mantissa does not matter. -/
theorem Near.of_lt {x : Binary} {q : ℚ} (hlow : (x.mantissa - x.below) * 2 ^ x.exponent < q)
    (hhigh : q < (x.mantissa + 1 / 2) * 2 ^ x.exponent) : x.Near q :=
  ⟨hlow.le, hhigh.le, fun _ => ⟨hlow, hhigh⟩⟩

end Binary

/-- The numerator and the denominator of a power. -/
theorem zpow_eq_div {b : ℚ} (hb : b ≠ 0) (e : Int) : b ^ e = b ^ e.toNat / b ^ (-e).toNat := by
  rw [← zpow_natCast, ← zpow_natCast, ← zpow_sub₀ hb]
  congr 1
  omega

theorem targetExponent_eq (n : Int) :
    Format.binary64.targetExponent n = max (n - 53) (-1074) := rfl

/-- The powers of two around a number, from its whole part at some exponent. -/
theorem bounds_of_floor {q : ℚ} {m : Nat} {e : Int} (hlow : m ≤ q / 2 ^ e)
    (hhigh : q / 2 ^ e < m + 1) :
    (m ≠ 0 → 2 ^ (totalExponent m e - 1) ≤ q) ∧ q < 2 ^ totalExponent m e := by
  have hpow : (0 : ℚ) < 2 ^ e := by positivity
  rw [le_div_iff₀ hpow] at hlow
  rw [div_lt_iff₀ hpow] at hhigh
  constructor
  · intro hm
    have hlog : ((2 ^ m.log2 : Nat) : ℚ) ≤ m := by exact_mod_cast Nat.log2_self_le hm
    have hsplit : (2 : ℚ) ^ (totalExponent m e - 1) = (2 ^ m.log2 : Nat) * 2 ^ e := by
      rw [show totalExponent m e - 1 = m.log2 + e by unfold totalExponent; omega,
        zpow_add₀ two_ne_zero, zpow_natCast]
      push_cast
      rfl
    calc (2 : ℚ) ^ (totalExponent m e - 1) = (2 ^ m.log2 : Nat) * 2 ^ e := hsplit
      _ ≤ m * 2 ^ e := mul_le_mul_of_nonneg_right hlog hpow.le
      _ ≤ q := hlow
  · have hlog : ((m + 1 : Nat) : ℚ) ≤ (2 ^ (m.log2 + 1) : Nat) := by
      exact_mod_cast Nat.lt_log2_self
    have hsplit : (2 : ℚ) ^ totalExponent m e = (2 ^ (m.log2 + 1) : Nat) * 2 ^ e := by
      rw [show totalExponent m e = (m.log2 + 1 : Nat) + e by unfold totalExponent; omega,
        zpow_add₀ two_ne_zero, zpow_natCast]
      push_cast
      rfl
    calc q < (m + 1) * 2 ^ e := hhigh
      _ ≤ (2 ^ (m.log2 + 1) : Nat) * 2 ^ e := by
        apply mul_le_mul_of_nonneg_right _ hpow.le
        exact_mod_cast hlog
      _ = 2 ^ totalExponent m e := hsplit.symm

section intervals

variable {x : Binary} {q : ℚ}

/-- A number in the interval is below the power of two above the double. -/
theorem Binary.Near.lt_pow (hq : x.Near q) (hx : x.Canonical) : q < 2 ^ (x.exponent + 53) := by
  have hpow : (0 : ℚ) < 2 ^ x.exponent := by positivity
  have hmantissa : (x.mantissa : ℚ) + 1 ≤ 2 ^ 53 := by exact_mod_cast hx.lt
  calc q ≤ (x.mantissa + 1 / 2) * 2 ^ x.exponent := hq.high
    _ < 2 ^ 53 * 2 ^ x.exponent := by
      apply mul_lt_mul_of_pos_right _ hpow
      linarith
    _ = 2 ^ (x.exponent + 53) := by
      rw [zpow_add₀ two_ne_zero, mul_comm]
      rfl

/-- Only below a power of two does a number have fewer bits than the double that it is rounded to. -/
theorem Binary.Near.narrow_of_lt (hq : x.Near q) (hx : x.Canonical) (hleast : x.exponent ≠ -1074)
    (hlt : q < 2 ^ (x.exponent + 52)) :
    x.narrowBelow = true ∧ 2 ^ (x.exponent + 51) ≤ q := by
  have hpow : (0 : ℚ) < 2 ^ x.exponent := by positivity
  have hsplit (k : Nat) : (2 : ℚ) ^ (x.exponent + k) = 2 ^ k * 2 ^ x.exponent := by
    rw [zpow_add₀ two_ne_zero, mul_comm, zpow_natCast]
  have hnormal : 2 ^ 52 ≤ x.mantissa := hx.normal.resolve_right hleast
  have hbelow := x.below_le
  have hmantissa : x.mantissa = 2 ^ 52 := by
    have hless : (x.mantissa - x.below) * 2 ^ x.exponent < 2 ^ 52 * 2 ^ x.exponent := by
      rw [← hsplit 52]
      exact lt_of_le_of_lt hq.low hlt
    have hless' : (x.mantissa : ℚ) - x.below < 2 ^ 52 := lt_of_mul_lt_mul_right hless hpow.le
    have hcast : (x.mantissa : ℚ) < 2 ^ 52 + 1 := by linarith
    have hupper : x.mantissa < 2 ^ 52 + 1 := by exact_mod_cast hcast
    omega
  have hexponent : -1074 < x.exponent := lt_of_le_of_ne hx.least (Ne.symm hleast)
  refine ⟨hx.narrow.mpr ⟨hmantissa, hexponent⟩, ?_⟩
  calc (2 : ℚ) ^ (x.exponent + 51) = 2 ^ 51 * 2 ^ x.exponent := hsplit 51
    _ ≤ (x.mantissa - x.below) * 2 ^ x.exponent := by
      apply mul_le_mul_of_nonneg_right _ hpow.le
      rw [hmantissa]
      push_cast
      linarith
    _ ≤ q := hq.low

/-- The exponent that a number in the interval is rounded at is that of the double, or one less if
the number is just below a power of two. -/
theorem Binary.Near.target_cases (hq : x.Near q) (hx : x.Canonical) {m : Nat} {e : Int}
    (hlow : m ≤ q / 2 ^ e) (hhigh : q / 2 ^ e < m + 1)
    (henough : e ≤ Format.binary64.targetExponent (totalExponent m e)) :
    Format.binary64.targetExponent (totalExponent m e) = x.exponent ∨
      Format.binary64.targetExponent (totalExponent m e) = x.exponent - 1 ∧
        x.narrowBelow = true ∧ q < 2 ^ (x.exponent + 52) := by
  obtain ⟨hbits, hpow⟩ := bounds_of_floor hlow hhigh
  have hleast := hx.least
  have hexponents {a b : Int} (h : (2 : ℚ) ^ a < 2 ^ b) : a < b :=
    (zpow_lt_zpow_iff_right₀ one_lt_two).mp h
  rw [targetExponent_eq] at henough ⊢
  -- a whole part of zero is only possible far below the doubles
  have hupper {b : Int} (hb : -1073 ≤ b) (hless : q < 2 ^ b) : totalExponent m e ≤ b := by
    by_cases hm : m = 0
    · have htotal : totalExponent m e = 1 + e := by
        rw [hm]
        rfl
      omega
    · have hexponent := hexponents (lt_of_le_of_lt (hbits hm) hless)
      omega
  have habove := hupper (by omega) (hq.lt_pow hx)
  by_cases hexponent : x.exponent = -1074
  · left
    omega
  by_cases hless : q < 2 ^ (x.exponent + 52)
  · obtain ⟨hnarrow, hhalf⟩ := hq.narrow_of_lt hx hexponent hless
    have hover := hupper (by omega) hless
    have hunder := hexponents (lt_of_le_of_lt hhalf hpow)
    right
    exact ⟨by omega, hnarrow, hless⟩
  · have hunder := hexponents (lt_of_le_of_lt (not_lt.mp hless) hpow)
    left
    omega

/-! ### Rounding -/

/-- A shift to a greater exponent keeps the number. -/
theorem shiftToExponent_represents {m : Nat} {e t : Int} {accuracy : Accuracy} (hle : e ≤ t)
    (hm : Represents (.ofMantissaAndAccuracy m accuracy) (q / 2 ^ e)) :
    ∃ em, shiftToExponent m e accuracy t = (em, t) ∧ Represents em (q / 2 ^ t) := by
  obtain ⟨n, rfl⟩ : ∃ n : Nat, t = e + n := ⟨(t - e).toNat, by omega⟩
  have hamount : (e + n - e).toNat = n := by omega
  have hshift := hm.shiftRight n
  rw [div_div, ← zpow_natCast, ← zpow_add₀ two_ne_zero] at hshift
  refine ⟨_, ?_, hshift⟩
  unfold shiftToExponent
  simp only [hamount]

/-- A mantissa that has its exponent already stays as it is. -/
theorem shiftToTargetExponent_of_canonical (hx : x.Canonical) :
    shiftToTargetExponent .binary64 x.mantissa x.exponent .exact =
      (⟨x.mantissa, false, false⟩, x.exponent) := by
  have hlog : x.mantissa.log2 < 53 := (Nat.log2_lt hx.pos.ne').mpr hx.lt
  have hleast := hx.least
  have hamount : (Format.binary64.targetExponent (totalExponent x.mantissa x.exponent) -
      x.exponent).toNat = 0 := by
    rw [targetExponent_eq]
    unfold totalExponent
    omega
  unfold shiftToTargetExponent shiftToExponent
  simp only [hamount, Nat.cast_zero, add_zero]
  rfl

/-- A mantissa that was rounded up to the next power of two is shifted once again. -/
theorem shiftToTargetExponent_of_carry {e : Int} (hleast : -1074 < e) :
    shiftToTargetExponent .binary64 (2 ^ 53) (e - 1) .exact = (⟨2 ^ 52, false, false⟩, e) := by
  have hamount : (Format.binary64.targetExponent (totalExponent (2 ^ 53) (e - 1)) -
      (e - 1)).toNat = 1 := by
    rw [targetExponent_eq]
    unfold totalExponent
    rw [Nat.log2_two_pow]
    omega
  unfold shiftToTargetExponent shiftToExponent
  simp only [hamount]
  congr 1
  omega

/-- At the exponent of the double, a number in the interval is rounded to its mantissa. -/
theorem Binary.Near.rounded (hq : x.Near q) {em : ExtendedMantissa}
    (hem : Represents em (q / 2 ^ x.exponent)) : em.roundedMantissa = x.mantissa := by
  have hpow : (0 : ℚ) < 2 ^ x.exponent := by positivity
  have hbelow := x.below_le
  have hlow : x.mantissa - x.below ≤ q / 2 ^ x.exponent := (le_div_iff₀ hpow).mpr hq.low
  have hhigh : q / 2 ^ x.exponent ≤ x.mantissa + 1 / 2 := (div_le_iff₀ hpow).mpr hq.high
  apply hem.roundedMantissa_eq (by linarith) hhigh
  intro hodd
  obtain ⟨hlow', hhigh'⟩ := hq.odd hodd
  rw [← lt_div_iff₀ hpow] at hlow'
  rw [← div_lt_iff₀ hpow] at hhigh'
  exact ⟨by linarith, hhigh'⟩

/-- Just below a power of two, a number in the interval is rounded up to it. -/
theorem Binary.Near.rounded_below (hq : x.Near q) (hx : x.Canonical) (hnarrow : x.narrowBelow = true)
    (hless : q < 2 ^ (x.exponent + 52)) {em : ExtendedMantissa}
    (hem : Represents em (q / 2 ^ (x.exponent - 1))) : em.roundedMantissa = 2 ^ 53 := by
  have hpow : (0 : ℚ) < 2 ^ (x.exponent - 1) := by positivity
  have hdouble : (2 : ℚ) ^ x.exponent = 2 * 2 ^ (x.exponent - 1) := by
    rw [← zpow_one_add₀ two_ne_zero]
    congr 1
    omega
  have hmantissa : (x.mantissa : ℚ) = 2 ^ 52 := by exact_mod_cast (hx.narrow.mp hnarrow).1
  have hbelow : x.below = 1 / 4 := if_pos hnarrow
  have hlow : (2 : ℚ) ^ 53 - 1 / 2 ≤ q / 2 ^ (x.exponent - 1) := by
    rw [le_div_iff₀ hpow]
    have hq := hq.low
    rw [hmantissa, hbelow, hdouble] at hq
    linarith
  have hhigh : q / 2 ^ (x.exponent - 1) < 2 ^ 53 := by
    rw [div_lt_iff₀ hpow]
    rw [zpow_add₀ two_ne_zero, hdouble] at hless
    have hcast : (2 : ℚ) ^ (52 : Int) = 2 ^ 52 := rfl
    rw [hcast] at hless
    linarith
  apply hem.roundedMantissa_eq
  · push_cast
    exact hlow
  · push_cast
    linarith
  · intro hodd
    exact absurd hodd (by decide)

/-- Rounding shifts a mantissa to its exponent, rounds it, and shifts it once again. -/
theorem roundWithAccuracy_eq {m m' : Nat} {e e₁ e₂ : Int} {accuracy : Accuracy}
    {em₁ em₂ : ExtendedMantissa}
    (hfirst : shiftToTargetExponent .binary64 m e accuracy = (em₁, e₁))
    (hsecond : shiftToTargetExponent .binary64 em₁.roundedMantissa e₁ .exact = (em₂, e₂))
    (hmantissa : em₂.mantissa = m') (hpos : 0 < m') :
    roundWithAccuracy .binary64 .positive m e accuracy = .finite .positive m' e₂ hpos := by
  subst hmantissa
  unfold roundWithAccuracy
  rw [hfirst]
  dsimp only
  rw [hsecond]
  exact dif_neg hpos.ne'

/-- **Rounding.** A number in the interval of a double is rounded to the double, from every mantissa
and exponent that hold enough of its bits. -/
theorem roundWithAccuracy_of_near (hx : x.Canonical) (hq : x.Near q) {m : Nat} {e : Int}
    {accuracy : Accuracy} (hm : Represents (.ofMantissaAndAccuracy m accuracy) (q / 2 ^ e))
    (henough : e ≤ Format.binary64.targetExponent (totalExponent m e)) :
    roundWithAccuracy .binary64 .positive m e accuracy =
      .finite .positive x.mantissa x.exponent hx.pos := by
  have hfloor := hm.floor
  have hmantissa : (ExtendedMantissa.ofMantissaAndAccuracy m accuracy).mantissa = m := by
    cases accuracy with
    | exact => rfl
    | inexact half => cases half <;> rfl
  rw [hmantissa] at hfloor
  have hcases := hq.target_cases hx hfloor.1 hfloor.2 henough
  obtain ⟨em, hfirst, hem⟩ := shiftToExponent_represents henough hm
  have hfirst : shiftToTargetExponent .binary64 m e accuracy = (em, _) := hfirst
  generalize Format.binary64.targetExponent (totalExponent m e) = t at *
  rcases hcases with rfl | ⟨rfl, hnarrow, hless⟩
  · have hsecond := shiftToTargetExponent_of_canonical hx
    rw [← hq.rounded hem] at hsecond
    exact roundWithAccuracy_eq hfirst hsecond (hq.rounded hem) hx.pos
  · -- rounded up to `2 ^ 53`, one bit too much
    obtain ⟨hpower, hleast⟩ := hx.narrow.mp hnarrow
    have hsecond := shiftToTargetExponent_of_carry hleast
    rw [← hq.rounded_below hx hnarrow hless hem] at hsecond
    exact roundWithAccuracy_eq hfirst hsecond hpower.symm hx.pos

end intervals

end LineScript.Decimal

import Mathlib.Tactic.Ring
import LineScript.Number
import LineScript.Proofs.Number.Rounding

/-!
# Decimals as doubles

A decimal `digits * 10 ^ exponent` is turned into a double by one multiplication or division that is
rounded once. So a decimal in the interval of a double becomes that double.

  * `mul_of_near`, `div_of_near`: a product or quotient in the interval is rounded to the double.
  * `Binary.ofBits_canonical`, `pack_ofBits`, `unpack_eq_ofBits`: the 63 bits after the sign of a
    finite double hold a canonical mantissa and exponent, and nothing is lost in between.
  * `scientific_of_near`: a decimal in the interval of a double becomes the double.

**Two ways.** Where digits and power of ten are doubles themselves, the operation is one of doubles;
otherwise it is done with whole numbers of any size. Both are rounded in the same way.
-/

namespace LineScript.Decimal

open Float.Model Float.Model.UnpackedFloat

variable {x : Binary} {q : ℚ}

/-! ### Products and quotients -/

/-- A product holds enough bits if it has 53 of them. -/
theorem mul_of_near (hx : x.Canonical) {m₁ m₂ : Nat} {e₁ e₂ : Int} (h₁ : 0 < m₁) (h₂ : 0 < m₂)
    (hbits : 2 ^ 52 ≤ m₁ * m₂) (hq : x.Near ((m₁ * 2 ^ e₁) * (m₂ * 2 ^ e₂))) :
    mul .binary64 (.finite .positive m₁ e₁ h₁) (.finite .positive m₂ e₂ h₂) =
      .finite .positive x.mantissa x.exponent hx.pos := by
  apply roundWithAccuracy_of_near hx hq
  · have hproduct : (m₁ * 2 ^ e₁) * (m₂ * 2 ^ e₂) / (2 : ℚ) ^ (e₁ + e₂) = (m₁ * m₂ : Nat) := by
      rw [zpow_add₀ two_ne_zero]
      field_simp
      push_cast
      ring
    rw [hproduct]
    exact represents_exact _
  · have hlog : 52 ≤ (m₁ * m₂).log2 := (Nat.le_log2 (by positivity)).mpr hbits
    rw [targetExponent_eq]
    unfold totalExponent
    omega

/-- The quotient is shifted until it has 53 bits or the least exponent is reached. -/
theorem div_of_near (hx : x.Canonical) {m₁ m₂ : Nat} {e₁ e₂ : Int} (h₁ : 0 < m₁) (h₂ : 0 < m₂)
    (hq : x.Near ((m₁ * 2 ^ e₁) / (m₂ * 2 ^ e₂))) :
    div .binary64 (.finite .positive m₁ e₁ h₁) (.finite .positive m₂ e₂ h₂) =
      .finite .positive x.mantissa x.exponent hx.pos := by
  show roundWithAccuracy .binary64 .positive (divCore .binary64 m₁ e₁ m₂ e₂).1
    (divCore .binary64 m₁ e₁ m₂ e₂).2.1 (divCore .binary64 m₁ e₁ m₂ e₂).2.2 = _
  unfold divCore
  rw [targetExponent_eq]
  dsimp only
  generalize ht : min (e₁ - e₂) (max (totalExponent m₁ e₁ - totalExponent m₂ e₂ - 53) (-1074)) = t
  obtain ⟨n, hn⟩ : ∃ n : Nat, e₁ - e₂ = t + n := ⟨(e₁ - e₂ - t).toNat, by omega⟩
  have hamount : (e₁ - e₂ - t).toNat = n := by omega
  have hquotient : (m₁ * 2 ^ e₁) / (m₂ * 2 ^ e₂) / (2 : ℚ) ^ t = (m₁ <<< n : Nat) / m₂ := by
    rw [show e₁ = e₂ + (t + n) by omega, zpow_add₀ two_ne_zero, zpow_add₀ two_ne_zero,
      zpow_natCast, Nat.shiftLeft_eq]
    field_simp
    push_cast
    ring
  rw [hamount]
  apply roundWithAccuracy_of_near hx hq
  · rw [hquotient]
    exact represents_fraction _ h₂
  · rw [targetExponent_eq]
    -- above the least exponent the quotient is at least `2 ^ 52`
    by_cases hleast : t ≤ -1074
    · omega
    have hlog₁ : 2 ^ m₁.log2 ≤ m₁ := Nat.log2_self_le h₁.ne'
    have hlog₂ : m₂ < 2 ^ (m₂.log2 + 1) := Nat.lt_log2_self
    unfold totalExponent at ht ⊢
    have hbits : 2 ^ 52 ≤ (m₁ <<< n) / m₂ := by
      rw [Nat.le_div_iff_mul_le h₂, Nat.shiftLeft_eq]
      calc 2 ^ 52 * m₂ ≤ 2 ^ 52 * 2 ^ (m₂.log2 + 1) := Nat.mul_le_mul_left _ hlog₂.le
        _ = 2 ^ (52 + (m₂.log2 + 1)) := (Nat.pow_add ..).symm
        _ ≤ 2 ^ (m₁.log2 + n) := Nat.pow_le_pow_right (by decide) (by omega)
        _ = 2 ^ m₁.log2 * 2 ^ n := Nat.pow_add ..
        _ ≤ m₁ * 2 ^ n := Nat.mul_le_mul_right _ hlog₁
    have hlog : 52 ≤ ((m₁ <<< n) / m₂).log2 := (Nat.le_log2 (by omega)).mpr hbits
    omega

/-! ### Bits -/

section bits

variable {bits : Nat}

theorem Binary.ofBits_subnormal (h : bits < 2 ^ 52) :
    Binary.ofBits bits = ⟨bits, -1074, false⟩ := by
  have hfield : bits / Nat.pow 2 52 % Nat.pow 2 11 = 0 := by
    show bits / 2 ^ 52 % 2 ^ 11 = 0
    omega
  have hfraction : bits % Nat.pow 2 52 = bits := Nat.mod_eq_of_lt h
  unfold Binary.ofBits
  simp only [hfield, hfraction, if_true]

theorem Binary.ofBits_normal (h : 2 ^ 52 ≤ bits) (hlt : bits < 2 ^ 63) :
    Binary.ofBits bits = ⟨2 ^ 52 + bits % 2 ^ 52, (bits / 2 ^ 52 : Nat) - 1075,
      bits % 2 ^ 52 == 0 && decide (1 < bits / 2 ^ 52)⟩ := by
  have hfield : bits / Nat.pow 2 52 % Nat.pow 2 11 = bits / 2 ^ 52 := by
    show bits / 2 ^ 52 % 2 ^ 11 = bits / 2 ^ 52
    omega
  have hne : bits / 2 ^ 52 ≠ 0 := by omega
  unfold Binary.ofBits
  simp only [hfield, hne, if_false]
  rfl

/-- The bits of a finite number that is not zero hold a canonical mantissa and exponent. -/
theorem Binary.ofBits_canonical (hne : bits ≠ 0) (hfinite : bits < 2047 * 2 ^ 52) :
    (Binary.ofBits bits).Canonical := by
  by_cases hsub : bits < 2 ^ 52
  · rw [Binary.ofBits_subnormal hsub]
    have hleast : (-1074 : Int) ≤ 971 := by decide
    exact ⟨Nat.pos_of_ne_zero hne, by show bits < 2 ^ 53; omega, le_refl _, hleast, .inr rfl,
      by simp⟩
  · rw [Binary.ofBits_normal (by omega) (by omega)]
    refine ⟨?_, ?_, ?_, ?_, .inl ?_, ?_⟩
    · show 0 < 2 ^ 52 + bits % 2 ^ 52
      omega
    · show 2 ^ 52 + bits % 2 ^ 52 < 2 ^ 53
      omega
    · show -1074 ≤ ((bits / 2 ^ 52 : Nat) : Int) - 1075
      omega
    · show ((bits / 2 ^ 52 : Nat) : Int) - 1075 ≤ 971
      omega
    · show 2 ^ 52 ≤ 2 ^ 52 + bits % 2 ^ 52
      omega
    · simp only [Bool.and_eq_true, beq_iff_eq, decide_eq_true_eq]
      omega

theorem finite_congr {s : Sign} {m m' : Nat} {e e' : Int} {hpos : 0 < m} {hpos' : 0 < m'}
    (hmantissa : m = m') (hexponent : e = e') :
    UnpackedFloat.finite s m e hpos = .finite s m' e' hpos' := by
  subst hmantissa hexponent
  rfl

/-- The parts of a number that is not negative stand side by side. -/
theorem toNat_packComponents (exponent : BitVec 11) (mantissa : BitVec 52) :
    (packComponents .binary64 .positive exponent mantissa).toNat =
      exponent.toNat * 2 ^ 52 + mantissa.toNat := by
  show ((Sign.positive.toBitVec ++ exponent) ++ mantissa).toNat = _
  rw [BitVec.toNat_append, ← Nat.shiftLeft_add_eq_or_of_lt mantissa.isLt, BitVec.toNat_append,
    Nat.shiftLeft_eq]
  show ((0 : Nat) <<< 11 ||| exponent.toNat) * 2 ^ 52 + _ = _
  rw [Nat.zero_shiftLeft, Nat.zero_or]

theorem toNat_pack_subnormal {m : Nat} (hpos : 0 < m) (hsub : m < 2 ^ 52) :
    (pack .binary64 (.finite .positive m (-1074) hpos)).toNat = m := by
  have hlog : m.log2 < 52 := (Nat.log2_lt hpos.ne').mpr hsub
  have hbits : m.log2 + 1 ≠ 53 := by omega
  show (if m.log2 + 1 = 53 then _ else packComponents .binary64 .positive 0#11 (.ofNat 52 m)).toNat
    = m
  rw [if_neg hbits, toNat_packComponents, BitVec.toNat_ofNat, BitVec.toNat_ofNat]
  omega

theorem toNat_pack_normal {m : Nat} {e : Int} (hpos : 0 < m) (hnormal : 2 ^ 52 ≤ m)
    (hlt : m < 2 ^ 53) (hleast : -1074 ≤ e) (hgreatest : e ≤ 971) :
    (pack .binary64 (.finite .positive m e hpos)).toNat =
      (e + 1075).toNat * 2 ^ 52 + (m - 2 ^ 52) := by
  have hlog : m.log2 + 1 = 53 := by
    have hlower : 52 ≤ m.log2 := (Nat.le_log2 hpos.ne').mpr hnormal
    have hupper : m.log2 < 53 := (Nat.log2_lt hpos.ne').mpr hlt
    omega
  have hbiased : (e + 1023 + 52).toNat = (e + 1075).toNat := by omega
  have hfits : ¬ 2 ^ 11 ≤ (e + 1023 + 52).toNat + 1 := by omega
  show (if 2 ^ 11 ≤ (e + 1023 + 52).toNat + 1 then _ else if m.log2 + 1 = 53 then
    packComponents .binary64 .positive (.ofNat 11 (e + 1023 + 52).toNat) (.ofNat 52 m) else _).toNat
      = _
  rw [if_neg hfits, if_pos hlog, toNat_packComponents, BitVec.toNat_ofNat, BitVec.toNat_ofNat,
    hbiased]
  omega

/-- A mantissa and exponent that come from bits are packed into these bits. -/
theorem pack_ofBits (hne : bits ≠ 0) (hfinite : bits < 2047 * 2 ^ 52)
    (hpos : 0 < (Binary.ofBits bits).mantissa) :
    (UnpackedFloat.pack .binary64 (.finite .positive (Binary.ofBits bits).mantissa
      (Binary.ofBits bits).exponent hpos)).toNat = bits := by
  have hx := Binary.ofBits_canonical hne hfinite
  by_cases hsub : bits < 2 ^ 52
  · have hbits := Binary.ofBits_subnormal hsub
    generalize Binary.ofBits bits = x at *
    subst hbits
    exact toNat_pack_subnormal hpos hsub
  · have hbits := Binary.ofBits_normal (by omega : 2 ^ 52 ≤ bits) (by omega)
    generalize Binary.ofBits bits = x at *
    subst hbits
    rw [toNat_pack_normal hpos (Nat.le_add_right ..) hx.lt hx.least hx.greatest]
    show ((bits / 2 ^ 52 : Nat) - 1075 + 1075 : Int).toNat * 2 ^ 52 +
      (2 ^ 52 + bits % 2 ^ 52 - 2 ^ 52) = bits
    omega

section parts

variable {b : BitVec Format.binary64.numBits}

theorem toNat_unpackMantissa : (unpackMantissa b).toNat = b.toNat % 2 ^ 52 := by
  unfold unpackMantissa
  rw [BitVec.toNat_cast, BitVec.extractLsb_toNat]
  rfl

theorem toNat_unpackExponent : (unpackExponent b).toNat = b.toNat / 2 ^ 52 % 2 ^ 11 := by
  unfold unpackExponent
  rw [BitVec.toNat_cast, BitVec.extractLsb_toNat, Nat.shiftRight_eq_div_pow]
  rfl

theorem unpackSign_of_lt (hsign : b.toNat < 2 ^ 63) : unpackSign b = 0#1 := by
  apply BitVec.eq_of_toNat_eq
  unfold unpackSign
  rw [BitVec.toNat_cast, BitVec.extractLsb_toNat, Nat.shiftRight_eq_div_pow]
  show b.toNat / 2 ^ 63 % 2 = 0
  omega

/-- The bits of a finite positive number are unpacked into the mantissa and exponent that they
hold. -/
theorem unpack_eq_ofBits (hne : b.toNat ≠ 0) (hfinite : b.toNat < 2047 * 2 ^ 52) :
    UnpackedFloat.unpack .binary64 b = .finite .positive (Binary.ofBits b.toNat).mantissa
      (Binary.ofBits b.toNat).exponent (Binary.ofBits_canonical hne hfinite).pos := by
  have hexponent := toNat_unpackExponent (b := b)
  have hmantissa := toNat_unpackMantissa (b := b)
  have hnotSpecial : unpackExponent b ≠ -1#11 := by
    intro h
    rw [h] at hexponent
    have hfield : (2047 : Nat) = b.toNat / 2 ^ 52 % 2 ^ 11 := hexponent
    omega
  unfold UnpackedFloat.unpack
  rw [unpackSign_of_lt (by omega)]
  dsimp only
  rw [if_neg hnotSpecial]
  by_cases hsub : b.toNat < 2 ^ 52
  · have hbits := Binary.ofBits_subnormal hsub
    have hzero : unpackExponent b = 0#11 := by
      apply BitVec.eq_of_toNat_eq
      rw [hexponent]
      show b.toNat / 2 ^ 52 % 2 ^ 11 = 0
      omega
    have hsome : unpackMantissa b ≠ 0#52 := by
      intro h
      rw [h] at hmantissa
      have hfraction : 0 = b.toNat % 2 ^ 52 := hmantissa
      omega
    rw [if_pos hzero, dif_neg hsome]
    apply finite_congr
    · rw [hmantissa, hbits, Nat.mod_eq_of_lt hsub]
    · rw [hzero, hbits]
      rfl
  · have hbits := Binary.ofBits_normal (by omega : 2 ^ 52 ≤ b.toNat) (by omega)
    have hnonzero : unpackExponent b ≠ 0#11 := by
      intro h
      rw [h] at hexponent
      have hfield : 0 = b.toNat / 2 ^ 52 % 2 ^ 11 := hexponent
      omega
    rw [if_neg hnonzero]
    apply finite_congr
    · rw [BitVec.toNat_append, ← Nat.shiftLeft_add_eq_or_of_lt (unpackMantissa b).isLt, hmantissa,
        hbits]
      rfl
    · rw [hexponent, hbits, Nat.mod_eq_of_lt (by omega : b.toNat / 2 ^ 52 < 2 ^ 11)]
      rfl

end parts

/-- A mantissa of 53 bits is not changed by packing. -/
theorem unpack_pack_normal {m : Nat} {e : Int} (hpos : 0 < m) (hnormal : 2 ^ 52 ≤ m)
    (hlt : m < 2 ^ 53) (hleast : -1074 ≤ e) (hgreatest : e ≤ 971) :
    UnpackedFloat.unpack .binary64 (UnpackedFloat.pack .binary64 (.finite .positive m e hpos)) =
      .finite .positive m e hpos := by
  have hbits := toNat_pack_normal hpos hnormal hlt hleast hgreatest
  generalize UnpackedFloat.pack .binary64 (.finite .positive m e hpos) = b at *
  have hx := Binary.ofBits_normal (by omega : 2 ^ 52 ≤ b.toNat) (by omega)
  rw [unpack_eq_ofBits (by omega) (by omega)]
  apply finite_congr
  · rw [hx]
    show 2 ^ 52 + b.toNat % 2 ^ 52 = m
    omega
  · rw [hx]
    show ((b.toNat / 2 ^ 52 : Nat) : Int) - 1075 = e
    omega

end bits

/-! ### Powers of ten and whole numbers -/

/-- The number is unpacked from the float with a mantissa of 53 bits. -/
def Holds (f : Float) (q : ℚ) : Prop :=
  ∃ m e, ∃ hpos : 0 < m,
    f.toModel.unpack = .finite .positive m e hpos ∧ 2 ^ 52 ≤ m ∧ m * (2 : ℚ) ^ e = q

/-- The number is its own double: it lies in the middle of the interval. -/
theorem Binary.near_self (x : Binary) : x.Near (x.mantissa * 2 ^ x.exponent) := by
  have hpow : (0 : ℚ) < 2 ^ x.exponent := by positivity
  have hbelow := x.below_pos
  apply Binary.Near.of_lt
  · exact mul_lt_mul_of_pos_right (by linarith) hpow
  · exact mul_lt_mul_of_pos_right (by linarith) hpow

/-- A mantissa and exponent in their normal form are not changed by rounding. -/
theorem roundWithAccuracy_self (hx : x.Canonical) :
    roundWithAccuracy .binary64 .positive x.mantissa x.exponent .exact =
      .finite .positive x.mantissa x.exponent hx.pos := by
  apply roundWithAccuracy_of_near hx x.near_self
  · rw [mul_div_cancel_right₀ _ (by positivity)]
    exact represents_exact _
  · rw [targetExponent_eq]
    unfold totalExponent
    rcases hx.normal with hnormal | hleast
    · have hlog : 52 ≤ x.mantissa.log2 := (Nat.le_log2 hx.pos.ne').mpr hnormal
      omega
    · omega

section whole

variable {n : Nat}

/-- A whole number of at most 53 bits, shifted to the left until it has 53 of them. -/
def Binary.ofNat (n : Nat) : Binary where
  mantissa := n <<< (52 - n.log2)
  exponent := -(52 - n.log2 : Nat)
  narrowBelow := decide (n <<< (52 - n.log2) = 2 ^ 52)

theorem Binary.ofNat_mantissa_bounds (hn : 0 < n) (hlt : n < 2 ^ 53) :
    2 ^ 52 ≤ (Binary.ofNat n).mantissa ∧ (Binary.ofNat n).mantissa < 2 ^ 53 := by
  have hlog : n.log2 < 53 := (Nat.log2_lt hn.ne').mpr hlt
  have hlower : 2 ^ n.log2 ≤ n := Nat.log2_self_le hn.ne'
  have hupper : n < 2 ^ (n.log2 + 1) := Nat.lt_log2_self
  show 2 ^ 52 ≤ n <<< (52 - n.log2) ∧ n <<< (52 - n.log2) < 2 ^ 53
  rw [Nat.shiftLeft_eq]
  constructor
  · calc 2 ^ 52 = 2 ^ n.log2 * 2 ^ (52 - n.log2) := by
          rw [← Nat.pow_add]
          congr 1
          omega
      _ ≤ n * 2 ^ (52 - n.log2) := Nat.mul_le_mul_right _ hlower
  · calc n * 2 ^ (52 - n.log2) < 2 ^ (n.log2 + 1) * 2 ^ (52 - n.log2) :=
          Nat.mul_lt_mul_of_pos_right hupper (by positivity)
      _ = 2 ^ 53 := by
          rw [← Nat.pow_add]
          congr 1
          omega

theorem Binary.ofNat_canonical (hn : 0 < n) (hlt : n < 2 ^ 53) : (Binary.ofNat n).Canonical := by
  obtain ⟨hlower, hupper⟩ := Binary.ofNat_mantissa_bounds hn hlt
  have hexponent : (Binary.ofNat n).exponent = -(52 - n.log2 : Nat) := rfl
  refine ⟨by omega, hupper, by omega, by omega, .inl hlower, ?_⟩
  have hnarrow : (Binary.ofNat n).narrowBelow = decide ((Binary.ofNat n).mantissa = 2 ^ 52) := rfl
  rw [hnarrow, decide_eq_true_eq]
  omega

theorem Binary.ofNat_value (n : Nat) :
    ((Binary.ofNat n).mantissa : ℚ) * 2 ^ (Binary.ofNat n).exponent = n := by
  show ((n <<< (52 - n.log2) : Nat) : ℚ) * 2 ^ (-(52 - n.log2 : Nat) : Int) = n
  rw [Nat.shiftLeft_eq, zpow_neg, zpow_natCast]
  push_cast
  field_simp

/-- A whole number of at most 53 bits is a double. -/
theorem ofNat_eq (hn : 0 < n) (hlt : n < 2 ^ 53) :
    UnpackedFloat.ofNat .binary64 n = .finite .positive (Binary.ofNat n).mantissa
      (Binary.ofNat n).exponent (Binary.ofNat_canonical hn hlt).pos := by
  have hlog : n.log2 < 53 := (Nat.log2_lt hn.ne').mpr hlt
  have hcompare : compare (n : Int) 0 = .gt := Int.compare_eq_gt.mpr (by omega)
  have hamount : (-Format.binary64.targetExponent (totalExponent n 0)).toNat = 52 - n.log2 := by
    rw [targetExponent_eq]
    unfold totalExponent
    omega
  unfold UnpackedFloat.ofNat UnpackedFloat.ofInt UnpackedFloat.normalize
  rw [hcompare]
  unfold UnpackedFloat.round decreaseExponent
  dsimp only
  rw [Int.toNat_natCast, zero_sub, hamount, zero_sub]
  exact roundWithAccuracy_self (Binary.ofNat_canonical hn hlt)

theorem holds_nat (hn : 0 < n) (hlt : n < 2 ^ 53) : Holds n.toUInt64.toFloat n := by
  have hx := Binary.ofNat_canonical hn hlt
  have hlower := (Binary.ofNat_mantissa_bounds hn hlt).1
  refine ⟨_, _, hx.pos, ?_, hlower, Binary.ofNat_value n⟩
  have hnat : n.toUInt64.toNat = n := UInt64.toNat_ofNat_of_lt' (by
    show n < 2 ^ 64
    omega)
  show UnpackedFloat.unpack .binary64 (UnpackedFloat.pack .binary64
    (UnpackedFloat.ofNat .binary64 n.toUInt64.toNat)) = _
  rw [hnat, ofNat_eq hn hlt]
  exact unpack_pack_normal hx.pos hlower hx.lt hx.least hx.greatest

end whole

/-- The bits of the powers of ten up to `10 ^ 22`. -/
theorem powersOfTen_bits : ∀ e : Fin 23,
    let bits := (Float.exactlyRepresentablePowersOfTen[e]).toBits.toNat
    let x := Binary.ofBits bits
    bits ≠ 0 ∧ bits < 2047 * 2 ^ 52 ∧ 2 ^ 52 ≤ x.mantissa ∧
      x.mantissa * 2 ^ x.exponent.toNat = 10 ^ e.val * 2 ^ (-x.exponent).toNat := by
  decide +kernel

theorem holds_powerOfTen {e : Nat} (he : e < Float.exactlyRepresentablePowersOfTen.size) :
    Holds Float.exactlyRepresentablePowersOfTen[e] (10 ^ e) := by
  obtain ⟨hne, hfinite, hnormal, hvalue⟩ := powersOfTen_bits ⟨e, he⟩
  have hx := Binary.ofBits_canonical hne hfinite
  refine ⟨_, _, hx.pos, unpack_eq_ofBits hne hfinite, hnormal, ?_⟩
  rw [zpow_eq_div two_ne_zero, mul_div_assoc', div_eq_iff (by positivity)]
  exact_mod_cast hvalue

section floats

variable {f g : Float} {a b : ℚ}

theorem mul_of_holds (hf : Holds f a) (hg : Holds g b) (hx : x.Canonical) (hq : x.Near (a * b)) :
    f * g = .ofModel (.pack (.finite .positive x.mantissa x.exponent hx.pos)) := by
  obtain ⟨m₁, e₁, h₁, hf, hbits₁, rfl⟩ := hf
  obtain ⟨m₂, e₂, h₂, hg, hbits₂, rfl⟩ := hg
  have hbits : 2 ^ 52 ≤ m₁ * m₂ := le_trans hbits₁ (Nat.le_mul_of_pos_right m₁ h₂)
  show Float.ofModel (.pack (UnpackedFloat.mul .binary64 f.toModel.unpack g.toModel.unpack)) = _
  rw [hf, hg, mul_of_near hx h₁ h₂ hbits hq]

theorem div_of_holds (hf : Holds f a) (hg : Holds g b) (hx : x.Canonical) (hq : x.Near (a / b)) :
    f / g = .ofModel (.pack (.finite .positive x.mantissa x.exponent hx.pos)) := by
  obtain ⟨m₁, e₁, h₁, hf, _, rfl⟩ := hf
  obtain ⟨m₂, e₂, h₂, hg, _, rfl⟩ := hg
  show Float.ofModel (.pack (UnpackedFloat.div .binary64 f.toModel.unpack g.toModel.unpack)) = _
  rw [hf, hg, div_of_near hx h₁ h₂ hq]

end floats

/-! ### Decimals -/

section decimals

variable {digits : Nat} {exponent : Int}

/-- The decimals in the interval of a double are positive. -/
theorem Binary.Near.pow_le (hq : x.Near q) (hx : x.Canonical) : 2 ^ (-1075 : Int) ≤ q := by
  have hbelow := x.below_le
  have hone : (1 : ℚ) ≤ x.mantissa := by exact_mod_cast hx.pos
  calc (2 : ℚ) ^ (-1075 : Int) = 1 / 2 * 2 ^ (-1074 : Int) := by
        rw [show (-1075 : Int) = -1 + -1074 by rfl, zpow_add₀ two_ne_zero, zpow_neg_one, one_div]
    _ ≤ (x.mantissa - x.below) * 2 ^ x.exponent := by
      apply mul_le_mul (by linarith) _ (by positivity) (by linarith)
      exact zpow_le_zpow_right₀ one_le_two hx.least
    _ ≤ q := hq.low

theorem digits_pos (hx : x.Canonical) (hq : x.Near (digits * 10 ^ exponent)) : 0 < digits := by
  by_contra hzero
  have hle := hq.pow_le hx
  rw [Nat.eq_zero_of_not_pos hzero, Nat.cast_zero, zero_mul] at hle
  have hpos : (0 : ℚ) < 2 ^ (-1075 : Int) := by positivity
  exact absurd hle (not_le.mpr hpos)

/-- The decimals in the interval of a double are neither too great nor too small to be read. -/
theorem exponent_bounds (hx : x.Canonical) (hq : x.Near (digits * 10 ^ exponent)) :
    exponent ≤ 2048 ∧ -(2048 + digits.log2) ≤ exponent := by
  have hdigits := digits_pos hx hq
  have hgreatest := hx.greatest
  have hexponents {a b : Int} (h : (2 : ℚ) ^ a < 2 ^ b) : a < b :=
    (zpow_lt_zpow_iff_right₀ one_lt_two).mp h
  constructor
  · -- a greater power of ten is above every double
    by_contra hgreat
    obtain ⟨n, rfl⟩ : ∃ n : Nat, exponent = n := ⟨exponent.toNat, by omega⟩
    have hone : (1 : ℚ) ≤ digits := by exact_mod_cast hdigits
    have hpower : (2 : ℚ) ^ (n : Int) < 2 ^ (x.exponent + 53) := by
      calc (2 : ℚ) ^ (n : Int) = 2 ^ n := zpow_natCast 2 n
        _ ≤ 10 ^ n := pow_le_pow_left₀ (by norm_num) (by norm_num) n
        _ ≤ digits * 10 ^ n := le_mul_of_one_le_left (by positivity) hone
        _ = digits * 10 ^ (n : Int) := by rw [zpow_natCast]
        _ < 2 ^ (x.exponent + 53) := hq.lt_pow hx
    have hless := hexponents hpower
    omega
  · -- a smaller one takes all digits below the least double
    by_contra hsmall
    obtain ⟨n, rfl⟩ : ∃ n : Nat, exponent = -n := ⟨(-exponent).toNat, by omega⟩
    have hlog : (digits : ℚ) < 2 ^ (digits.log2 + 1) := by exact_mod_cast Nat.lt_log2_self
    have hpower : (2 : ℚ) ^ (-1075 : Int) < 2 ^ ((digits.log2 + 1 : Nat) + -(n : Int)) := by
      calc (2 : ℚ) ^ (-1075 : Int) ≤ digits * 10 ^ (-(n : Int)) := hq.pow_le hx
        _ ≤ digits * 2 ^ (-(n : Int)) := by
          apply mul_le_mul_of_nonneg_left _ (by positivity)
          rw [zpow_neg, zpow_neg, zpow_natCast, zpow_natCast]
          apply inv_anti₀ (by positivity)
          exact pow_le_pow_left₀ (by norm_num) (by norm_num) n
        _ < 2 ^ (digits.log2 + 1) * 2 ^ (-(n : Int)) :=
          mul_lt_mul_of_pos_right hlog (by positivity)
        _ = 2 ^ ((digits.log2 + 1 : Nat) + -(n : Int)) := by
          rw [zpow_add₀ two_ne_zero, zpow_natCast]
    have hless := hexponents hpower
    omega

/-- With whole numbers of any size. -/
theorem ofScientific_of_near (hx : x.Canonical) (hq : x.Near (digits * 10 ^ exponent)) :
    UnpackedFloat.ofScientific .binary64 digits exponent =
      .finite .positive x.mantissa x.exponent hx.pos := by
  have hdigits := digits_pos hx hq
  obtain ⟨hgreat, hsmall⟩ := exponent_bounds hx hq
  have hnotGreat : ¬ exponent > 2 ^ Format.binary64.exponentBits := by
    show ¬ exponent > 2 ^ 11
    omega
  have hnotSmall : ¬ exponent < -((2 ^ Format.binary64.exponentBits : Int) + digits.log2) := by
    show ¬ exponent < -((2 ^ 11 : Int) + digits.log2)
    omega
  unfold UnpackedFloat.ofScientific
  rw [dif_neg hdigits.ne', if_neg hnotGreat, if_neg hnotSmall]
  by_cases hnonneg : 0 ≤ exponent
  · obtain ⟨n, rfl⟩ : ∃ n : Nat, exponent = n := ⟨exponent.toNat, by omega⟩
    rw [if_pos hnonneg]
    apply mul_of_near hx
    · show 2 ^ 52 ≤ digits <<< 53 * 10 ^ n
      rw [Nat.shiftLeft_eq]
      calc 2 ^ 52 ≤ 1 * 2 ^ 53 * 1 := by decide
        _ ≤ digits * 2 ^ 53 * 10 ^ n :=
          Nat.mul_le_mul (Nat.mul_le_mul_right _ hdigits) (Nat.pow_pos (by decide))
    · have hvalue : (digits : ℚ) * (10 : ℚ) ^ (n : Int) =
          (digits <<< 53 : Nat) * 2 ^ (-53 : Int) * ((10 ^ n : Nat) * 2 ^ (0 : Int)) := by
        rw [Nat.shiftLeft_eq, zpow_neg, zpow_natCast]
        push_cast
        field_simp
      rw [hvalue] at hq
      exact hq
  · obtain ⟨n, rfl⟩ : ∃ n : Nat, exponent = -n := ⟨(-exponent).toNat, by omega⟩
    rw [if_neg hnonneg]
    apply div_of_near hx
    have hvalue : (digits : ℚ) * (10 : ℚ) ^ (-(n : Int)) =
        digits * 2 ^ (0 : Int) / ((10 ^ n : Nat) * 2 ^ (0 : Int)) := by
      rw [zpow_neg, zpow_natCast, zpow_zero, mul_one, mul_one, Nat.cast_pow]
      rfl
    rw [neg_neg, Int.toNat_natCast]
    rw [hvalue] at hq
    exact hq

/-- With doubles where digits and power of ten are doubles, with whole numbers of any size
otherwise. -/
theorem float_of_near (hx : x.Canonical) (negative : Bool) (e : Nat)
    (hq : x.Near (digits * 10 ^ (if negative then -(e : Int) else e))) :
    Float.ofScientific digits negative e =
      .ofModel (.pack (.finite .positive x.mantissa x.exponent hx.pos)) := by
  have hdigits := digits_pos hx hq
  unfold Float.ofScientific
  by_cases hexact : digits < 2 ^ 53 ∧ e ≤ 22
  · -- digits and power of ten are doubles, and the operation is rounded once
    rw [dif_pos hexact]
    obtain ⟨hlt, he⟩ := hexact
    have hdouble := holds_nat hdigits hlt
    have hpower := holds_powerOfTen (Nat.lt_succ_of_le he)
    cases negative with
    | false => exact mul_of_holds hdouble hpower hx hq
    | true =>
      have hquotient : x.Near (digits / 10 ^ e) := by
        rw [div_eq_mul_inv, ← zpow_natCast, ← zpow_neg]
        exact hq
      exact div_of_holds hdouble hpower hx hquotient
  · rw [dif_neg hexact]
    have hexponent : (if negative then Int.negOfNat e else Int.ofNat e) =
        if negative then -(e : Int) else e := by
      cases negative with
      | false => rfl
      | true => exact Int.negOfNat_eq
    show Float.ofModel (.pack (UnpackedFloat.ofScientific .binary64 digits _)) = _
    rw [hexponent, ofScientific_of_near hx hq]

/-- Bits determine a double. -/
theorem ofModel_pack_ofBits {f : Float} (hne : f.toBits.toNat ≠ 0)
    (hfinite : f.toBits.toNat < 2047 * 2 ^ 52)
    (hpos : 0 < (Binary.ofBits f.toBits.toNat).mantissa) :
    Float.ofModel (.pack (.finite .positive (Binary.ofBits f.toBits.toNat).mantissa
      (Binary.ofBits f.toBits.toNat).exponent hpos)) = f := by
  have hbits := pack_ofBits hne hfinite hpos
  generalize UnpackedFloat.finite .positive (Binary.ofBits f.toBits.toNat).mantissa
    (Binary.ofBits f.toBits.toNat).exponent hpos = u at *
  obtain ⟨⟨bits, hvalid⟩⟩ := f
  have hequal : UInt64.ofBitVec (UnpackedFloat.pack .binary64 u) = bits :=
    UInt64.eq_of_toBitVec_eq (BitVec.eq_of_toNat_eq hbits)
  subst hequal
  rfl

/-- A decimal in the interval of a double is read as that double. -/
theorem scientific_of_near {f : Float} (hne : f.toBits.toNat ≠ 0)
    (hfinite : f.toBits.toNat < 2047 * 2 ^ 52)
    (hq : (Binary.ofBits f.toBits.toNat).Near (digits * 10 ^ exponent)) :
    Number.scientific digits exponent = f := by
  have hx := Binary.ofBits_canonical hne hfinite
  rw [← ofModel_pack_ofBits hne hfinite hx.pos]
  unfold Number.scientific
  by_cases hnonneg : 0 ≤ exponent
  · rw [if_pos hnonneg]
    apply float_of_near hx
    rwa [if_neg Bool.false_ne_true, Int.toNat_of_nonneg hnonneg]
  · rw [if_neg hnonneg]
    apply float_of_near hx
    rwa [if_pos rfl, Int.toNat_of_nonneg (by omega), neg_neg]

end decimals

end LineScript.Decimal

import LineScript.Proofs.Number.ReadBack

/-!
# Numbers with a sign

A number with a sign is written as a minus and the number without it, and a minus before a number is
an operator of its own. So what is read back is the negation of a number without a sign.

  * `Number.Signed x`: a finite number with the sign bit set. A negative zero is one.
  * `Number.Signed.unsigned`: its negation has no sign, and `Number.Signed.neg_neg`: the negation of
    that is the number again.
  * `Number.Signed.render_eq`: it is written as a minus and its negation.

All of this holds because negation changes the sign bit and no other bit.
-/

namespace LineScript

open Float.Model Float.Model.UnpackedFloat

/-! ### The sign bit -/

namespace Decimal

section bits

variable {b b' : BitVec Format.binary64.numBits}

theorem unpackSign_of_ge (hsign : 2 ^ 63 ≤ b.toNat) : unpackSign b = 1#1 := by
  have hlt : b.toNat < 2 ^ 64 := b.isLt
  apply BitVec.eq_of_toNat_eq
  unfold unpackSign
  rw [BitVec.toNat_cast, BitVec.extractLsb_toNat, Nat.shiftRight_eq_div_pow]
  show b.toNat / 2 ^ 63 % 2 = 1
  omega

/-- Bits that differ in the sign alone are unpacked into opposite numbers. -/
theorem unpack_eq_neg (hsign : b'.toNat < 2 ^ 63) (hbits : b.toNat = 2 ^ 63 + b'.toNat) :
    UnpackedFloat.unpack .binary64 b = (UnpackedFloat.unpack .binary64 b').neg := by
  have hmantissa : unpackMantissa b = unpackMantissa b' := by
    apply BitVec.eq_of_toNat_eq
    rw [toNat_unpackMantissa, toNat_unpackMantissa]
    omega
  have hexponent : unpackExponent b = unpackExponent b' := by
    apply BitVec.eq_of_toNat_eq
    rw [toNat_unpackExponent, toNat_unpackExponent]
    omega
  unfold UnpackedFloat.unpack
  rw [unpackSign_of_ge (by omega), unpackSign_of_lt hsign]
  dsimp only
  by_cases hspecial : unpackExponent b' = -1#11
  · rw [if_pos hspecial, if_pos (hexponent.trans hspecial), hmantissa]
    split <;> rfl
  · rw [if_neg hspecial, if_neg (hexponent.trans_ne hspecial)]
    by_cases hlow : unpackExponent b' = 0#11
    · rw [if_pos hlow, if_pos (hexponent.trans hlow)]
      by_cases hzero : unpackMantissa b' = 0#52
      · rw [dif_pos hzero, dif_pos (hmantissa.trans hzero)]
        rfl
      · rw [dif_neg hzero, dif_neg (hmantissa.trans_ne hzero)]
        exact finite_congr (by rw [hmantissa]) (by rw [hexponent])
    · rw [if_neg hlow, if_neg (hexponent.trans_ne hlow)]
      exact finite_congr (by rw [hmantissa]) (by rw [hexponent])

theorem toNat_packComponents_negative (exponent : BitVec 11) (mantissa : BitVec 52) :
    (packComponents .binary64 .negative exponent mantissa).toNat =
      2 ^ 63 + (packComponents .binary64 .positive exponent mantissa).toNat := by
  rw [toNat_packComponents]
  show ((Sign.negative.toBitVec ++ exponent) ++ mantissa).toNat = _
  rw [BitVec.toNat_append, ← Nat.shiftLeft_add_eq_or_of_lt mantissa.isLt, BitVec.toNat_append,
    ← Nat.shiftLeft_add_eq_or_of_lt exponent.isLt, Nat.shiftLeft_eq, Nat.shiftLeft_eq]
  show (1 * 2 ^ 11 + exponent.toNat) * 2 ^ 52 + mantissa.toNat = _
  omega

/-- Packed, a negative number has the bits of its opposite and the sign bit. -/
theorem toNat_pack_negative {m : Nat} (e : Int) (hpos : 0 < m) :
    (pack .binary64 (.finite .negative m e hpos)).toNat =
      2 ^ 63 + (pack .binary64 (.finite .positive m e hpos)).toNat := by
  unfold UnpackedFloat.pack
  dsimp only
  split
  · exact toNat_packComponents_negative _ _
  · split <;> exact toNat_packComponents_negative _ _

/-- The bits of a number without a sign are unpacked and packed without loss. -/
theorem toNat_pack_unpack (hfinite : b.toNat < 2047 * 2 ^ 52) :
    (pack .binary64 (UnpackedFloat.unpack .binary64 b)).toNat = b.toNat ∧
      (pack .binary64 (UnpackedFloat.unpack .binary64 b).neg).toNat = 2 ^ 63 + b.toNat := by
  by_cases hzero : b.toNat = 0
  · obtain rfl : b = 0#64 := BitVec.eq_of_toNat_eq hzero
    decide
  · have hpack := pack_ofBits hzero hfinite (Binary.ofBits_canonical hzero hfinite).pos
    rw [unpack_eq_ofBits hzero hfinite]
    refine ⟨hpack, ?_⟩
    show (pack .binary64 (.finite .negative _ _ _)).toNat = _
    rw [toNat_pack_negative, hpack]

end bits

end Decimal

theorem unpacked_neg_neg (u : UnpackedFloat) : u.neg.neg = u := by
  cases u with
  | notANumber => rfl
  | zero s | infinity s => cases s <;> rfl
  | finite s => cases s <;> rfl

theorem isFinite_neg (u : UnpackedFloat) : u.neg.isFinite = u.isFinite := by
  cases u <;> rfl

namespace Number

open Decimal

variable {x y : Float}

theorem eq_of_toBits (h : x.toBits.toNat = y.toBits.toNat) : x = y := by
  obtain ⟨⟨bits, hvalid⟩⟩ := x
  obtain ⟨⟨bits', hvalid'⟩⟩ := y
  obtain rfl : bits = bits' := UInt64.toNat_inj.mp h
  rfl

/-- The bits of a negation. -/
theorem toNat_toBits_neg (x : Float) :
    (-x).toBits.toNat =
      (pack .binary64 (UnpackedFloat.unpack .binary64 x.toBits.toBitVec).neg).toNat := rfl

/-- Negation sets the sign bit of a number without a sign. -/
theorem Unsigned.toBits_neg (h : Unsigned x) : (-x).toBits.toNat = 2 ^ 63 + x.toBits.toNat := by
  rw [toNat_toBits_neg]
  exact (toNat_pack_unpack h.lt_infinity).2

/-- A finite number with the sign bit set. -/
def Signed (x : Float) : Prop :=
  x.isFinite = true ∧ 2 ^ 63 ≤ x.toBits.toNat

theorem unsigned_or_signed (h : x.isFinite = true) : Unsigned x ∨ Signed x := by
  by_cases hsign : x.toBits.toNat < 2 ^ 63
  · exact .inl ⟨h, hsign⟩
  · exact .inr ⟨h, not_lt.mp hsign⟩

namespace Signed

/-- The bits after the sign bit are those of a finite number, and that is the opposite one. -/
theorem exists_opposite (h : Signed x) :
    ∃ b : BitVec Format.binary64.numBits, b.toNat + 2 ^ 63 = x.toBits.toNat ∧
      b.toNat < 2047 * 2 ^ 52 ∧ x.toModel.unpack = (UnpackedFloat.unpack .binary64 b).neg := by
  obtain ⟨hfinite, hsign⟩ := h
  have hlt : x.toBits.toNat < 2 ^ 64 := x.toBits.toNat_lt
  have hb : (BitVec.ofNat 64 (x.toBits.toNat - 2 ^ 63)).toNat = x.toBits.toNat - 2 ^ 63 := by
    rw [BitVec.toNat_ofNat]
    omega
  generalize BitVec.ofNat 64 (x.toBits.toNat - 2 ^ 63) = b at hb
  have hunpack : x.toModel.unpack = (UnpackedFloat.unpack .binary64 b).neg := by
    apply unpack_eq_neg (by omega)
    show x.toBits.toNat = _
    omega
  refine ⟨b, by omega, ?_, hunpack⟩
  by_contra hge
  have hspecial := isFinite_unpack_of_ge (not_lt.mp hge) (by omega)
  have hfinite : x.toModel.unpack.isFinite = true := hfinite
  rw [hunpack, isFinite_neg, hspecial] at hfinite
  cases hfinite

/-- Negation clears the sign bit. -/
theorem toBits_neg (h : Signed x) : (-x).toBits.toNat + 2 ^ 63 = x.toBits.toNat := by
  obtain ⟨b, hbits, hfinite, hunpack⟩ := h.exists_opposite
  show (pack .binary64 x.toModel.unpack.neg).toNat + 2 ^ 63 = _
  rw [hunpack, unpacked_neg_neg, (toNat_pack_unpack hfinite).1, hbits]

theorem unsigned (h : Signed x) : Unsigned (-x) := by
  obtain ⟨b, hbits, hlt, hunpack⟩ := h.exists_opposite
  have hneg := h.toBits_neg
  refine ⟨?_, by omega⟩
  -- the bits of the negation are `b`
  have hsame : (-x).toBits.toBitVec = b := BitVec.eq_of_toNat_eq (by
    show (-x).toBits.toNat = b.toNat
    omega)
  have hfinite : x.toModel.unpack.isFinite = true := h.1
  rw [hunpack, isFinite_neg, ← hsame] at hfinite
  exact hfinite

theorem neg_neg (h : Signed x) : - -x = x := by
  apply eq_of_toBits
  have hbits := h.toBits_neg
  rw [h.unsigned.toBits_neg]
  omega

/-- It is written as a minus and its negation. -/
theorem render_eq (h : Signed x) : render x = "-" ++ render (-x) := by
  obtain ⟨hnan, hinf⟩ := isNaN_isInf_of_isFinite h.1
  obtain ⟨hnan', hinf'⟩ := isNaN_isInf_of_isFinite h.unsigned.1
  have hbits := h.toBits_neg
  have hsign : ¬ x.toBits.toNat < 2 ^ 63 := by omega
  have hsign' : (-x).toBits.toNat < 2 ^ 63 := h.unsigned.2
  have hrest : x.toBits.toNat % 2 ^ 63 = (-x).toBits.toNat := by omega
  have hrest' : (-x).toBits.toNat % 2 ^ 63 = (-x).toBits.toNat := Nat.mod_eq_of_lt hsign'
  unfold render
  simp only [hnan, hinf, hnan', hinf', Nat.pow_eq, hsign, hsign', hrest, hrest', if_true, if_false,
    Bool.false_eq_true, String.empty_append]
  split <;> rfl

end Signed

end Number

end LineScript

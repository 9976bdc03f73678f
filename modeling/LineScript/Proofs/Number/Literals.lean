import LineScript.Proofs.Number.ReadBack

/-!
# Literals have no sign

A number as the lexer finds it has no sign, and so has the double that it is read as: reading it
takes one product or quotient of numbers without a sign.

  * `Decimal.WithoutSign u`: an unpacked number whose sign is positive, or a NaN.
  * `Decimal.withoutSign_unpack`, `Decimal.WithoutSign.pack_lt`: these are the numbers whose sign
    bit is clear.
  * `Number.unsigned_of_isLiteral`: a literal that is read as a finite number has no sign.
-/

namespace LineScript

open Float.Model Float.Model.UnpackedFloat

/-! ### Unpacked numbers without a sign -/

namespace Decimal

/-- The sign is positive. A NaN has none. -/
def WithoutSign : UnpackedFloat → Prop
  | .finite s _ _ _ | .zero s | .infinity s => s = .positive
  | .notANumber => True

section bits

variable {b : BitVec Format.binary64.numBits} {u v : UnpackedFloat}

theorem withoutSign_unpack (h : b.toNat < 2 ^ 63) :
    WithoutSign (UnpackedFloat.unpack .binary64 b) := by
  unfold UnpackedFloat.unpack
  rw [unpackSign_of_lt h]
  dsimp only
  by_cases hspecial : unpackExponent b = -1#11
  · rw [if_pos hspecial]
    split <;> trivial
  · rw [if_neg hspecial]
    by_cases hexponent : unpackExponent b = 0#11
    · rw [if_pos hexponent]
      by_cases hmantissa : unpackMantissa b = 0#52
      · rw [dif_pos hmantissa]
        rfl
      · rw [dif_neg hmantissa]
        rfl
    · rw [if_neg hexponent]
      rfl

theorem toNat_packComponents_lt (exponent : BitVec 11) (mantissa : BitVec 52) :
    (packComponents .binary64 .positive exponent mantissa).toNat < 2 ^ 63 := by
  have hexponent : exponent.toNat < 2 ^ 11 := exponent.isLt
  have hmantissa : mantissa.toNat < 2 ^ 52 := mantissa.isLt
  rw [toNat_packComponents]
  omega

theorem WithoutSign.pack_lt (h : WithoutSign u) :
    (UnpackedFloat.pack .binary64 u).toNat < 2 ^ 63 := by
  cases u with
  | notANumber => exact toNat_packComponents_lt _ _
  | infinity s =>
    cases h
    exact toNat_packComponents_lt _ _
  | zero s =>
    cases h
    exact toNat_packComponents_lt _ _
  | finite s m e hpos =>
    cases h
    unfold UnpackedFloat.pack
    dsimp only
    split
    · exact toNat_packComponents_lt _ _
    · split <;> exact toNat_packComponents_lt _ _

/-! ### Products and quotients -/

theorem withoutSign_round (m : Nat) (e : Int) (accuracy : Accuracy) :
    WithoutSign (roundWithAccuracy .binary64 .positive m e accuracy) := by
  rcases hfirst : shiftToTargetExponent .binary64 m e accuracy with ⟨em₁, e₁⟩
  rcases hsecond : shiftToTargetExponent .binary64 em₁.roundedMantissa e₁ .exact with ⟨em₂, e₂⟩
  by_cases hzero : em₂.mantissa = 0
  · unfold roundWithAccuracy
    rw [hfirst]
    dsimp only
    rw [hsecond, dif_pos hzero]
    rfl
  · rw [roundWithAccuracy_eq hfirst hsecond rfl (Nat.pos_of_ne_zero hzero)]
    rfl

theorem withoutSign_mul (hu : WithoutSign u) (hv : WithoutSign v) :
    WithoutSign (mul .binary64 u v) := by
  cases u <;> cases v <;> cases hu <;> cases hv <;>
    first | trivial | rfl | exact withoutSign_round _ _ _

theorem withoutSign_div (hu : WithoutSign u) (hv : WithoutSign v) :
    WithoutSign (div .binary64 u v) := by
  cases u <;> cases v <;> cases hu <;> cases hv <;>
    first | trivial | rfl | exact withoutSign_round _ _ _

end bits

theorem withoutSign_ofNat (n : Nat) : WithoutSign (UnpackedFloat.ofNat .binary64 n) := by
  unfold UnpackedFloat.ofNat UnpackedFloat.ofInt UnpackedFloat.normalize
  cases hcompare : compare (n : Int) 0 with
  | lt => exact absurd (Int.compare_eq_lt.mp hcompare) (by omega)
  | eq => rfl
  | gt => exact withoutSign_round _ _ _

theorem withoutSign_ofScientific (digits : Nat) (e : Int) :
    WithoutSign (UnpackedFloat.ofScientific .binary64 digits e) := by
  unfold UnpackedFloat.ofScientific
  by_cases hzero : digits = 0
  · rw [dif_pos hzero]
    rfl
  rw [dif_neg hzero]
  by_cases hlarge : e > 2 ^ Format.binary64.exponentBits
  · rw [if_pos hlarge]
    rfl
  rw [if_neg hlarge]
  by_cases hsmall : e < -(2 ^ Format.binary64.exponentBits + (digits.log2 : Int))
  · rw [if_pos hsmall]
    rfl
  rw [if_neg hsmall]
  by_cases hwhole : 0 ≤ e
  · rw [if_pos hwhole]
    exact withoutSign_mul rfl rfl
  · rw [if_neg hwhole]
    exact withoutSign_div rfl rfl

/-- A double that is packed from a number without a sign has a clear sign bit. -/
theorem WithoutSign.toBits_lt {u : UnpackedFloat} (h : WithoutSign u) :
    (Float.ofModel (.pack u)).toBits.toNat < 2 ^ 63 :=
  h.pack_lt

theorem toBits_ofScientific_lt (digits : Nat) (negative : Bool) (e : Nat) :
    (Float.ofScientific digits negative e).toBits.toNat < 2 ^ 63 := by
  unfold Float.ofScientific
  split
  · next hexact =>
    have hdigits : WithoutSign digits.toUInt64.toFloat.toModel.unpack :=
      withoutSign_unpack (withoutSign_ofNat _).toBits_lt
    have hsize : e < Float.exactlyRepresentablePowersOfTen.size := Nat.lt_succ_of_le hexact.2
    have hpower : WithoutSign Float.exactlyRepresentablePowersOfTen[e].toModel.unpack := by
      obtain ⟨m, k, hpos, hunpack, _⟩ := holds_powerOfTen hsize
      rw [hunpack]
      rfl
    cases negative with
    | false => exact (withoutSign_mul hdigits hpower).toBits_lt
    | true => exact (withoutSign_div hdigits hpower).toBits_lt
  · exact (withoutSign_ofScientific _ _).toBits_lt

end Decimal

namespace Number

/-- A literal that is read as a finite number has no sign. -/
theorem unsigned_of_isLiteral {text : String} {x : Float} (h : IsLiteral text)
    (hread : read? text = some x) (hfinite : x.isFinite = true) : Unsigned x := by
  have hdenotes : ∃ n e, Denotes text n e := by
    cases h with
    | whole hsome hdigits => exact ⟨_, _, denotes_whole hsome hdigits⟩
    | point hsome hdigits hfraction => exact ⟨_, _, denotes_point hsome hdigits hfraction⟩
  obtain ⟨n, e, hdenotes⟩ := hdenotes
  obtain rfl : scientific n e = x := Option.some.inj (hdenotes.read.symm.trans hread)
  refine ⟨hfinite, ?_⟩
  unfold scientific
  split <;> exact Decimal.toBits_ofScientific_lt _ _ _

end Number

end LineScript

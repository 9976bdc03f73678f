import LineScript.Proofs.Lexer.Shapes
import LineScript.Proofs.Number.Scientific
import LineScript.Proofs.Number.Shortest

/-!
# Printed numbers read back

The text of a finite number without a sign is a literal, and the literal is read as the number.

  * `Number.Denotes text n e`: the text is a literal that is read as the double nearest to
    `n * 10 ^ e`.
  * `Decimal.Dec.denotes_positional`: written out in full, a decimal keeps its value.
  * `Number.Unsigned.reads_back`: the text of a number is read as the number.

The decimal that is read need not have the digits and the exponent of the one that was written, for
zeros are written before the point where the exponent is positive. Only its value is the same, and
that is enough: the double depends on the value alone.
-/

namespace LineScript

open Decimal

/-! ### Literals -/

namespace Number

/-- The text is a literal that is read as the double nearest to `n * 10 ^ e`. -/
structure Denotes (text : String) (n : Nat) (e : Int) : Prop where
  /-- The lexer takes the text for a number. -/
  literal : IsLiteral text
  /-- The double that is read. -/
  read : read? text = some (scientific n e)

/-- Text without a sign is read as a decimal if it is one. -/
theorem read?_of_decimal? {cs : List Char} {value : Float} (hsign : sign cs = (false, cs))
    (h : decimal? cs = some value) : read? (String.ofList cs) = some value := by
  unfold read?
  rw [String.toList_ofList, hsign]
  simp only [h]
  rfl

theorem denotes_whole {digits : List Char} (hsome : digits ≠ [])
    (hdigits : digits.all Char.isDigit) :
    Denotes (String.ofList digits) (ofDigits digits) 0 := by
  obtain ⟨htake, hdrop⟩ := takeWhile_digits hdigits
  have hsign : sign (digits ++ []) = (false, digits ++ []) := sign_of_digits hsome hdigits
  rw [List.append_nil] at hsign
  refine ⟨.whole hsome hdigits, read?_of_decimal? hsign ?_⟩
  simp [decimal?, htake, hdrop, hsome, exponent?]

theorem denotes_point {digits fraction : List Char} (hsome : digits ≠ [])
    (hdigits : digits.all Char.isDigit) (hfraction : fraction.all Char.isDigit) :
    Denotes (String.ofList (digits ++ '.' :: fraction)) (ofDigits (digits ++ fraction))
      (-fraction.length) := by
  obtain ⟨htake, hdrop⟩ := takeWhile_digits hfraction
  have hall := List.all_eq_true.mp hdigits
  have hpoint : ('.').isDigit = false := by decide
  refine ⟨.point hsome hdigits hfraction, read?_of_decimal? (sign_of_digits hsome hdigits) ?_⟩
  simp [decimal?, List.takeWhile_append_of_pos hall, List.dropWhile_append_of_pos hall,
    hpoint, htake, hdrop, hsome, exponent?]

/-- A point that is set among digits, with at least one of them before it. -/
theorem denotes_split {digits : List Char} {places : Nat} (hdigits : ∀ c ∈ digits, c.isDigit = true)
    (hlength : places < digits.length) :
    Denotes (String.ofList (digits.take (digits.length - places) ++
      '.' :: digits.drop (digits.length - places))) (ofDigits digits) (-places) := by
  have hsome : digits.take (digits.length - places) ≠ [] := by
    apply List.ne_nil_of_length_pos
    rw [List.length_take]
    omega
  have hwhole : (digits.take (digits.length - places)).all Char.isDigit = true :=
    List.all_eq_true.mpr fun c hc => hdigits c (List.mem_of_mem_take hc)
  have hfraction : (digits.drop (digits.length - places)).all Char.isDigit = true :=
    List.all_eq_true.mpr fun c hc => hdigits c (List.mem_of_mem_drop hc)
  have hpoint := denotes_point hsome hwhole hfraction
  have hplaces : digits.length - (digits.length - places) = places := by omega
  rw [List.take_append_drop, List.length_drop, hplaces] at hpoint
  exact hpoint

/-! ### Digits -/

theorem ofDigits_eq (ds : List Char) : ofDigits ds = Nat.ofDigitChars 10 ds 0 :=
  Nat.ofDigitChars_eq_foldl.symm

/-- Zeros after the digits. -/
theorem ofDigits_append_zeros (n k : Nat) :
    ofDigits (Nat.toDigits 10 n ++ List.replicate k '0') = n * 10 ^ k := by
  rw [ofDigits_eq, Nat.ofDigitChars_append, Nat.ofDigitChars_ten_toDigits,
    Nat.ofDigitChars_replicate_zero, Nat.mul_comm]

/-- Zeros before the digits. -/
theorem ofDigits_zeros_append (n k : Nat) :
    ofDigits (List.replicate k '0' ++ Nat.toDigits 10 n) = n := by
  rw [ofDigits_eq, Nat.ofDigitChars_append, Nat.ofDigitChars_replicate_zero, Nat.mul_zero,
    Nat.ofDigitChars_ten_toDigits]

theorem isDigit_toDigits (n : Nat) : ∀ c ∈ Nat.toDigits 10 n, c.isDigit = true :=
  fun _ hc => Nat.isDigit_of_mem_toDigits (by decide) (by decide) hc

theorem isDigit_zeros (k : Nat) : ∀ c ∈ List.replicate k '0', c.isDigit = true := by
  intro c hc
  rw [(List.mem_replicate.mp hc).2]
  decide

end Number

/-- Written out in full, a decimal keeps its value. -/
theorem Decimal.Dec.denotes_positional (d : Dec) :
    ∃ n e, Number.Denotes d.positional n e ∧ (n * 10 ^ e : ℚ) = d.digits * 10 ^ d.exponent := by
  have hdigits := Number.isDigit_toDigits d.digits
  have hsome : Nat.toDigits 10 d.digits ≠ [] := Nat.toDigits_ne_nil
  unfold Dec.positional
  by_cases hexponent : 0 ≤ d.exponent
  · -- zeros after the digits
    rw [if_pos hexponent]
    generalize hk : d.exponent.toNat = k
    refine ⟨_, _, Number.denotes_whole (List.append_ne_nil_of_left_ne_nil hsome _) ?_, ?_⟩
    · rw [List.all_eq_true, List.forall_mem_append]
      exact ⟨hdigits, Number.isDigit_zeros k⟩
    · rw [Number.ofDigits_append_zeros, show d.exponent = k by omega, zpow_natCast, zpow_zero]
      push_cast
      ring
  · -- zeros before the digits, so many that one comes before the point
    rw [if_neg hexponent]
    generalize hk : (-d.exponent).toNat = places
    refine ⟨_, _, Number.denotes_split ?_ ?_, ?_⟩
    · exact List.forall_mem_append.mpr ⟨Number.isDigit_zeros _, hdigits⟩
    · rw [List.length_append, List.length_replicate]
      omega
    · rw [Number.ofDigits_zeros_append, show d.exponent = -(places : Int) by omega]

/-! ### Numbers -/

namespace Number

open Float.Model Float.Model.UnpackedFloat

variable {x : Float}

/-- The greatest exponent belongs to infinity and NaN. -/
theorem isFinite_unpack_of_ge {b : BitVec Format.binary64.numBits} (hge : 2047 * 2 ^ 52 ≤ b.toNat)
    (hlt : b.toNat < 2 ^ 63) : (UnpackedFloat.unpack .binary64 b).isFinite = false := by
  have hexponent : unpackExponent b = -1#11 := by
    apply BitVec.eq_of_toNat_eq
    rw [toNat_unpackExponent]
    show b.toNat / 2 ^ 52 % 2 ^ 11 = 2047
    omega
  unfold UnpackedFloat.unpack
  dsimp only
  rw [if_pos hexponent]
  split <;> rfl

theorem isNaN_isInf_of_isFinite (h : x.isFinite = true) : x.isNaN = false ∧ x.isInf = false := by
  have hfinite : x.toModel.unpack.isFinite = true := h
  show x.toModel.unpack.isNaN = false ∧ x.toModel.unpack.isInf = false
  cases hunpacked : x.toModel.unpack with
  | notANumber =>
    rw [hunpacked] at hfinite
    exact absurd hfinite Bool.false_ne_true
  | infinity s =>
    rw [hunpacked] at hfinite
    exact absurd hfinite Bool.false_ne_true
  | zero s => exact ⟨rfl, rfl⟩
  | finite s m e hpos => exact ⟨rfl, rfl⟩

/-- No other bits than those that are all clear stand for the zero without a sign. -/
theorem eq_zero_of_toBits (hzero : x.toBits.toNat = 0) : x = 0 := by
  obtain ⟨⟨bits, hvalid⟩⟩ := x
  have hbits : bits = 0 := UInt64.toNat_inj.mp hzero
  subst hbits
  rfl

/-- A finite number without a sign. A negative zero has one. -/
def Unsigned (x : Float) : Prop :=
  x.isFinite = true ∧ x.toBits.toNat < 2 ^ 63

namespace Unsigned

theorem lt_infinity (h : Unsigned x) : x.toBits.toNat < 2047 * 2 ^ 52 := by
  by_contra hge
  have hspecial : x.isFinite = false := isFinite_unpack_of_ge (not_lt.mp hge) h.2
  rw [h.1] at hspecial
  exact absurd hspecial (by decide)

theorem render_eq (h : Unsigned x) (hne : x.toBits.toNat ≠ 0) :
    render x = (shortest (.ofBits x.toBits.toNat)).positional := by
  obtain ⟨hnan, hinf⟩ := isNaN_isInf_of_isFinite h.1
  have hrest : x.toBits.toNat % 2 ^ 63 = x.toBits.toNat := Nat.mod_eq_of_lt h.2
  unfold render
  simp only [hnan, hinf, Nat.pow_eq, hrest, hne, h.2, if_true, if_false]
  rw [if_neg Bool.false_ne_true, if_neg Bool.false_ne_true, String.empty_append]

/-- **Printed numbers read back.** The text of a number is a literal that is read as the number. -/
theorem reads_back (h : Unsigned x) : IsLiteral (render x) ∧ read? (render x) = some x := by
  by_cases hne : x.toBits.toNat = 0
  · rw [eq_zero_of_toBits hne]
    exact ⟨.whole (by decide : ['0'] ≠ []) (by decide), rfl⟩
  · rw [h.render_eq hne]
    obtain ⟨n, e, hdenotes, hvalue⟩ := (shortest (.ofBits x.toBits.toNat)).denotes_positional
    -- what is written has the value of the shortest decimal, and that lies in the interval
    have hnear := shortest_near (Binary.ofBits_canonical hne h.lt_infinity)
    rw [← hvalue] at hnear
    refine ⟨hdenotes.literal, ?_⟩
    rw [hdenotes.read, scientific_of_near hne h.lt_infinity hnear]

end Unsigned

end Number

end LineScript

import Mathlib.Algebra.Order.Floor.Semifield
import Mathlib.Data.Rat.Floor
import Mathlib.Tactic.NormNum
import Mathlib.Tactic.Ring
import LineScript.Proofs.Number.Rounding

/-!
# Shortest decimals lie in the interval

The decimal that is chosen for a double lies in the interval of rationals that are rounded to the
double, and so it is read back.

  * `contains_iff_near`: the test on whole numbers is the one on rationals.
  * `isSome_onGrid`: seventeen digits are enough. The step of that grid is less than the length of
    the interval, so one of the two neighbours of the double on the grid lies in the interval.
  * `shortest_near`: the search finds a decimal in the interval.
-/

namespace LineScript.Decimal

variable {x : Binary}

/-! ### Spans as rationals -/

/-- A multiple of a power of two over a power of ten, brought to the denominator of a span. -/
theorem scaled_eq (a : Nat) (f e : Int) :
    ((a * 2 ^ f.toNat * 10 ^ (-e).toNat : Nat) : ℚ) =
      a * 2 ^ f / 10 ^ e * (2 ^ (-f).toNat * 10 ^ e.toNat : Nat) := by
  rw [zpow_eq_div two_ne_zero f, zpow_eq_div (by norm_num : (10 : ℚ) ≠ 0) e]
  push_cast
  field_simp

theorem Span.rescale_zero (s : Span) : s.rescale 0 = s := by
  unfold Span.rescale
  simp

namespace Binary

theorem unit_eq (x : Binary) (e : Int) :
    (x.span.rescale e).unit = 2 ^ (-(x.exponent - 2)).toNat * 10 ^ e.toNat := by
  rw [neg_sub]
  rfl

theorem unit_pos (x : Binary) (e : Int) : (0 : ℚ) < (x.span.rescale e).unit := by
  rw [unit_eq]
  positivity

/-- A quarter of the last bit is the unit of the mantissas in a span. -/
theorem quarter_eq (x : Binary) : (2 : ℚ) ^ (x.exponent - 2) = 2 ^ x.exponent / 4 := by
  rw [zpow_sub₀ two_ne_zero]
  rfl

theorem value_eq (x : Binary) (e : Int) :
    ((x.span.rescale e).value : ℚ) =
      x.mantissa * 2 ^ x.exponent / 10 ^ e * (x.span.rescale e).unit := by
  have hscaled := scaled_eq (4 * x.mantissa) (x.exponent - 2) e
  rw [unit_eq]
  apply hscaled.trans
  rw [x.quarter_eq]
  push_cast
  ring

theorem high_eq (x : Binary) (e : Int) :
    ((x.span.rescale e).high : ℚ) =
      (x.mantissa + 1 / 2) * 2 ^ x.exponent / 10 ^ e * (x.span.rescale e).unit := by
  have hscaled := scaled_eq (4 * x.mantissa + 2) (x.exponent - 2) e
  rw [unit_eq]
  apply hscaled.trans
  rw [x.quarter_eq]
  push_cast
  ring

theorem Canonical.low_eq (hx : x.Canonical) (e : Int) :
    ((x.span.rescale e).low : ℚ) =
      (x.mantissa - x.below) * 2 ^ x.exponent / 10 ^ e * (x.span.rescale e).unit := by
  have hpos := hx.pos
  have hscaled := scaled_eq (4 * x.mantissa - if x.narrowBelow then 1 else 2) (x.exponent - 2) e
  rw [unit_eq]
  apply hscaled.trans
  rw [x.quarter_eq]
  unfold below
  split
  · rw [Nat.cast_sub (by omega)]
    push_cast
    ring
  · rw [Nat.cast_sub (by omega)]
    push_cast
    ring

end Binary

/-- The test on whole numbers is the one on rationals. -/
theorem contains_iff_near (hx : x.Canonical) (e : Int) (n : Nat) :
    (x.span.rescale e).contains n = true ↔ x.Near (n * 10 ^ e) := by
  have hunit := x.unit_pos e
  have hten : (0 : ℚ) < 10 ^ e := by positivity
  have hlow : (x.span.rescale e).low ≤ n * (x.span.rescale e).unit ↔
      (x.mantissa - x.below) * 2 ^ x.exponent ≤ (n * 10 ^ e : ℚ) := by
    rw [← Nat.cast_le (α := ℚ), Nat.cast_mul, hx.low_eq, mul_le_mul_iff_left₀ hunit, div_le_iff₀ hten]
  have hlow' : (x.span.rescale e).low < n * (x.span.rescale e).unit ↔
      (x.mantissa - x.below) * 2 ^ x.exponent < (n * 10 ^ e : ℚ) := by
    rw [← Nat.cast_lt (α := ℚ), Nat.cast_mul, hx.low_eq, mul_lt_mul_iff_left₀ hunit, div_lt_iff₀ hten]
  have hhigh : n * (x.span.rescale e).unit ≤ (x.span.rescale e).high ↔
      (n * 10 ^ e : ℚ) ≤ (x.mantissa + 1 / 2) * 2 ^ x.exponent := by
    rw [← Nat.cast_le (α := ℚ), Nat.cast_mul, x.high_eq, mul_le_mul_iff_left₀ hunit, le_div_iff₀ hten]
  have hhigh' : n * (x.span.rescale e).unit < (x.span.rescale e).high ↔
      (n * 10 ^ e : ℚ) < (x.mantissa + 1 / 2) * 2 ^ x.exponent := by
    rw [← Nat.cast_lt (α := ℚ), Nat.cast_mul, x.high_eq, mul_lt_mul_iff_left₀ hunit, lt_div_iff₀ hten]
  have hclosed : (x.span.rescale e).closed = (x.mantissa % 2 == 0) := rfl
  unfold Span.contains
  rw [hclosed]
  by_cases heven : x.mantissa % 2 = 0
  · rw [heven]
    show decide _ = true ↔ _
    rw [decide_eq_true_eq, hlow, hhigh]
    constructor
    · intro ⟨hl, hh⟩
      exact ⟨hl, hh, by omega⟩
    · intro hq
      exact ⟨hq.low, hq.high⟩
  · have hodd : x.mantissa % 2 = 1 := by omega
    rw [hodd]
    show decide _ = true ↔ _
    rw [decide_eq_true_eq, hlow', hhigh']
    constructor
    · intro ⟨hl, hh⟩
      exact .of_lt hl hh
    · intro hq
      exact hq.odd hodd

/-! ### Points of a grid -/

/-- The quotient of whole numbers is the whole part of their fraction. -/
theorem floor_fraction (a b : Nat) :
    ((a / b : Nat) : ℚ) ≤ a / b ∧ (a / b : ℚ) < (a / b : Nat) + 1 := by
  rw [← Nat.floor_div_eq_div (K := ℚ)]
  exact ⟨Nat.floor_le (by positivity), Nat.lt_floor_add_one _⟩

/-- The point that is chosen lies in the interval. -/
theorem contains_of_nearest? {s : Span} {n : Nat} (h : s.nearest? = some n) :
    s.contains n = true := by
  unfold Span.nearest? at h
  simp only at h
  split at h
  · next hbelow habove =>
    rw [← Option.some.inj h]
    split
    · exact hbelow
    · exact habove
  · next hbelow _ =>
    rw [← Option.some.inj h]
    exact hbelow
  · next _ habove =>
    rw [← Option.some.inj h]
    exact habove
  · exact absurd h (by simp)

/-- A point is chosen if one of the two neighbours lies in the interval. -/
theorem isSome_nearest? {s : Span}
    (h : s.contains (s.value / s.unit) = true ∨ s.contains (s.value / s.unit + 1) = true) :
    s.nearest?.isSome = true := by
  unfold Span.nearest?
  simp only
  split
  · rfl
  · rfl
  · rfl
  · next hbelow habove => simp [hbelow, habove] at h

/-- A decimal on a grid lies in the interval. -/
theorem onGrid_near (hx : x.Canonical) {e : Int} {d : Dec} (h : x.span.onGrid e = some d) :
    x.Near (d.digits * 10 ^ d.exponent) := by
  obtain ⟨n, hn, rfl⟩ := Option.map_eq_some_iff.mp h
  exact (contains_iff_near hx e n).mp (contains_of_nearest? hn)

/-- A grid whose step is less than the length of the interval has a point in it. -/
theorem isSome_onGrid (hx : x.Canonical) {e : Int}
    (hstep : (10 : ℚ) ^ e < (x.below + 1 / 2) * 2 ^ x.exponent) :
    (x.span.onGrid e).isSome = true := by
  have hunit := x.unit_pos e
  have hten : (0 : ℚ) < 10 ^ e := by positivity
  have hbelow : 0 < x.below * 2 ^ x.exponent := mul_pos x.below_pos (by positivity)
  have hpow : (0 : ℚ) < 2 ^ x.exponent := by positivity
  unfold Span.onGrid
  rw [Option.isSome_map]
  apply isSome_nearest?
  rw [contains_iff_near hx, contains_iff_near hx]
  generalize hg : (x.span.rescale e).value / (x.span.rescale e).unit = g
  -- the double lies between the points `g` and `g + 1` of the grid
  obtain ⟨hfloor, hceil⟩ : (g : ℚ) * 10 ^ e ≤ x.mantissa * 2 ^ x.exponent ∧
      (x.mantissa : ℚ) * 2 ^ x.exponent < (g + 1) * 10 ^ e := by
    have hdiv : (x.mantissa : ℚ) * 2 ^ x.exponent / 10 ^ e =
        (x.span.rescale e).value / (x.span.rescale e).unit := by
      rw [x.value_eq, mul_div_cancel_right₀ _ hunit.ne']
    rw [← le_div_iff₀ hten, ← div_lt_iff₀ hten, hdiv, ← hg]
    exact floor_fraction _ _
  -- if `g` is below the interval, `g + 1` is not above it: a step is less than its length
  by_cases hnear : (x.mantissa - x.below) * 2 ^ x.exponent < g * 10 ^ e
  · left
    exact .of_lt hnear (by linarith)
  · right
    push_cast
    exact .of_lt (by linarith) (by linarith)

/-! ### The number of digits -/

/-- A whole number has as many digits as its size says. -/
theorem pow_length_toDigits_le {n : Nat} (hn : n ≠ 0) : 10 ^ ((Nat.toDigits 10 n).length - 1) ≤ n := by
  by_cases hone : (Nat.toDigits 10 n).length ≤ 1
  · rw [show (Nat.toDigits 10 n).length - 1 = 0 by omega]
    omega
  · have hlength := Nat.length_toDigits_le_iff (n := n) (by decide : 1 < 10)
      (by omega : 0 < (Nat.toDigits 10 n).length - 1)
    omega

/-- The digits of the whole part of a fraction, moved by some places. -/
theorem pow_le_of_places {a b : Nat} (p : Nat) (hb : 0 < b) (hle : b ≤ a * 10 ^ p) :
    (10 : ℚ) ^ ((Nat.toDigits 10 (a * 10 ^ p / b)).length - (p : Int) - 1) ≤ a / b := by
  have hwhole : a * 10 ^ p / b ≠ 0 := (Nat.div_pos hle hb).ne'
  have hdigits := pow_length_toDigits_le hwhole
  have hlength := Nat.length_toDigits_pos (b := 10) (n := a * 10 ^ p / b)
  generalize Nat.toDigits 10 (a * 10 ^ p / b) = ds at *
  have hsplit : (10 : ℚ) ^ (ds.length - (p : Int) - 1) = (10 ^ (ds.length - 1) : Nat) / 10 ^ p := by
    rw [show ds.length - (p : Int) - 1 = (ds.length - 1 : Nat) - (p : Int) by omega,
      zpow_sub₀ (by norm_num), zpow_natCast, zpow_natCast]
    push_cast
    rfl
  rw [hsplit, div_le_iff₀ (by positivity)]
  calc ((10 ^ (ds.length - 1) : Nat) : ℚ) ≤ (a * 10 ^ p / b : Nat) := by exact_mod_cast hdigits
    _ ≤ (a * 10 ^ p : Nat) / b := (floor_fraction _ _).1
    _ = a / b * 10 ^ p := by
      push_cast
      ring

/-- The least double is far above `10 ^ -400`. -/
theorem Binary.Canonical.unit_le (hx : x.Canonical) {p : Nat} (hp : 400 ≤ p) :
    x.span.unit ≤ x.span.value * 10 ^ p := by
  have hpos := hx.pos
  have hleast := hx.least
  show 2 ^ (2 - x.exponent).toNat ≤ 4 * x.mantissa * 2 ^ (x.exponent - 2).toNat * 10 ^ p
  calc 2 ^ (2 - x.exponent).toNat ≤ 2 ^ (3 * p) := Nat.pow_le_pow_right (by decide) (by omega)
    _ = 8 ^ p := Nat.pow_mul 2 3 p
    _ ≤ 10 ^ p := Nat.pow_le_pow_left (by decide) p
    _ ≤ 4 * x.mantissa * 2 ^ (x.exponent - 2).toNat * 10 ^ p :=
      Nat.le_mul_of_pos_left _ (Nat.mul_pos (by omega) (Nat.two_pow_pos _))

/-- The first digit of a double is not zero. -/
theorem pow_magnitude_le (hx : x.Canonical) :
    (10 : ℚ) ^ (x.span.magnitude - 1) ≤ x.mantissa * 2 ^ x.exponent := by
  have hunit : 0 < x.span.unit := Nat.two_pow_pos _
  have hunit' : (0 : ℚ) < x.span.unit := by exact_mod_cast hunit
  have hvalue : (x.mantissa : ℚ) * 2 ^ x.exponent = x.span.value / x.span.unit := by
    have hscaled := x.value_eq 0
    rw [Span.rescale_zero, zpow_zero, div_one] at hscaled
    rw [hscaled, mul_div_cancel_right₀ _ hunit'.ne']
  rw [hvalue]
  unfold Span.magnitude
  split
  · next hle =>
    have h := pow_le_of_places 0 hunit (by omega : x.span.unit ≤ x.span.value * 10 ^ 0)
    simpa using h
  · rw [show (400 : Int) = (400 : Nat) from rfl]
    generalize hp : 400 = p
    exact pow_le_of_places p hunit (hx.unit_le hp.le)

/-- Seventeen digits tell any two doubles apart. -/
theorem step_lt (hx : x.Canonical) :
    (10 : ℚ) ^ (x.span.magnitude - 17) < (x.below + 1 / 2) * 2 ^ x.exponent := by
  have hpow : (0 : ℚ) < 2 ^ x.exponent := by positivity
  have hfirst := pow_magnitude_le hx
  have hsplit : (10 : ℚ) ^ (x.span.magnitude - 1) = 10 ^ 16 * 10 ^ (x.span.magnitude - 17) := by
    rw [← zpow_natCast, ← zpow_add₀ (by norm_num)]
    congr 1
    push_cast
    ring
  -- `2 ^ 53 < 10 ^ 16`; where the interval is narrower, the mantissa is only `2 ^ 52`
  have hlength : (x.mantissa : ℚ) < 10 ^ 16 * (x.below + 1 / 2) := by
    unfold Binary.below
    split
    · next hnarrow =>
      rw [(hx.narrow.mp hnarrow).1]
      norm_num
    · have hlt : (x.mantissa : ℚ) < 2 ^ 53 := by exact_mod_cast hx.lt
      norm_num at hlt ⊢
      linarith
  have hmul : (x.mantissa : ℚ) * 2 ^ x.exponent < 10 ^ 16 * (x.below + 1 / 2) * 2 ^ x.exponent :=
    mul_lt_mul_of_pos_right hlength hpow
  rw [hsplit] at hfirst
  linarith

/-! ### The search -/

/-- A zero in the exponent is one at the end of the digits. -/
theorem dropZero_value (d : Dec) :
    (d.dropZero.digits * 10 ^ d.dropZero.exponent : ℚ) = d.digits * 10 ^ d.exponent := by
  unfold Dec.dropZero
  split
  · next hzero =>
    have hdigits : (d.digits : ℚ) = 10 * (d.digits / 10 : Nat) := by
      exact_mod_cast (by omega : d.digits = 10 * (d.digits / 10))
    rw [hdigits, zpow_add_one₀ (by norm_num)]
    ring
  · rfl

/-- **Shortest decimals.** The decimal that is chosen for a double lies in its interval. -/
theorem shortest_near (hx : x.Canonical) :
    x.Near ((shortest x).digits * 10 ^ (shortest x).exponent) := by
  -- the search ends on the grid of seventeen digits at the latest
  have hsome : ((List.range 17).findSome? fun n =>
      x.span.onGrid (x.span.magnitude - (n + 1 : Nat))).isSome = true := by
    rw [List.findSome?_isSome_iff]
    exact ⟨16, by decide, isSome_onGrid hx (step_lt hx)⟩
  obtain ⟨d, hd⟩ := Option.isSome_iff_exists.mp hsome
  obtain ⟨n, -, hgrid⟩ := List.exists_of_findSome?_eq_some hd
  unfold shortest
  simp only [hd, Option.getD_some]
  rw [dropZero_value]
  exact onGrid_near hx hgrid

end LineScript.Decimal

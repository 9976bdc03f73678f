/-!
# Shortest decimals

Which decimal stands for a binary floating-point number: the one with the fewest digits among those
that read back as the same number, and of several with that many digits the nearest.

  * `Binary` is a positive double as `mantissa * 2 ^ exponent`; `Binary.ofBits` takes it from the
    bits.
  * The reals that round to it form an interval. `Span` writes the interval and the number itself
    over one common denominator, so that every comparison below is one of natural numbers.
  * `Span.onGrid` looks at the two neighbours of the number on one decimal grid;
    `shortest` tries the grids from the coarsest on.

**Ties.** When two decimals of the least length are equally near, the larger one is taken: 2⁻²⁵ ends
in `…313`, not in `…312`.
-/

namespace LineScript.Decimal

/-- The decimal number `digits * 10 ^ exponent`. -/
structure Dec where
  /-- The digits, read as a whole number. -/
  digits : Nat
  /-- The power of ten. -/
  exponent : Int
  deriving DecidableEq

/-! ### Binary numbers and their intervals -/

/-- A finite positive double, `mantissa * 2 ^ exponent`. -/
structure Binary where
  /-- The significant bits as a whole number. -/
  mantissa : Nat
  /-- The power of two. -/
  exponent : Int
  /-- Whether the next double below is only half as far away as the next one above. -/
  narrowBelow : Bool
  deriving DecidableEq

/-- Reads the 63 bits after the sign of a finite double. An exponent field of zero marks the
subnormal numbers, which have no hidden leading bit. -/
def Binary.ofBits (bits : Nat) : Binary :=
  let field : Nat := bits / Nat.pow 2 52 % Nat.pow 2 11
  let fraction : Nat := bits % Nat.pow 2 52
  if field = 0 then ⟨fraction, -1074, false⟩
  else ⟨Nat.pow 2 52 + fraction, (field : Int) - 1075, fraction == 0 && decide (1 < field)⟩

/-- A positive number `value / unit` and the ends `low / unit`, `high / unit` of the interval of
reals that round to it. -/
structure Span where
  /-- Lower end. -/
  low : Nat
  /-- The number. -/
  value : Nat
  /-- Upper end. -/
  high : Nat
  /-- Common denominator. -/
  unit : Nat
  /-- Whether the ends themselves round to the number. -/
  closed : Bool

/-- The interval of a double reaches half way to its neighbours. A number half way between two
doubles rounds to the one with an even mantissa, so the ends belong to even mantissas. -/
def Binary.span (x : Binary) : Span :=
  let scale := Nat.pow 2 (x.exponent - 2).toNat
  { low := (4 * x.mantissa - if x.narrowBelow then 1 else 2) * scale
    value := 4 * x.mantissa * scale
    high := (4 * x.mantissa + 2) * scale
    unit := Nat.pow 2 (2 - x.exponent).toNat
    closed := x.mantissa % 2 == 0 }

namespace Span

/-- The same number and interval, divided by `10 ^ e`. -/
def rescale (s : Span) (e : Int) : Span :=
  let up := Nat.pow 10 (-e).toNat
  { s with
    low := s.low * up
    value := s.value * up
    high := s.high * up
    unit := s.unit * Nat.pow 10 e.toNat }

/-- Whether the whole number `n` lies in the interval. -/
def contains (s : Span) (n : Nat) : Bool :=
  let at_ := n * s.unit
  if s.closed then decide (s.low ≤ at_ ∧ at_ ≤ s.high) else decide (s.low < at_ ∧ at_ < s.high)

/-- The whole number in the interval that is nearest to the number, if one of the two next to it is
in the interval; the larger one if both are equally near. -/
def nearest? (s : Span) : Option Nat :=
  let below := s.value / s.unit
  let above := below + 1
  match s.contains below, s.contains above with
  | true, true => some (if 2 * s.value < (below + above) * s.unit then below else above)
  | true, false => some below
  | false, true => some above
  | false, false => none

/-- The decimal with exponent `e` that stands for the number, if that grid has one. -/
def onGrid (s : Span) (e : Int) : Option Dec :=
  (s.rescale e).nearest?.map (⟨·, e⟩)

/-- Number of digits before the decimal point, or minus the number of zeros after it: the least
`k` with `value / unit < 10 ^ k`. Doubles are above `10 ^ -400`, so the second case is never cut
short. -/
def magnitude (s : Span) : Int :=
  if s.unit ≤ s.value then (Nat.toDigits 10 (s.value / s.unit)).length
  else (Nat.toDigits 10 (s.value * Nat.pow 10 400 / s.unit)).length - (400 : Int)

end Span

/-! ### The search -/

/-- Moves one trailing zero into the exponent. The search meets at most one: it stops at the
coarsest grid that has a point in the interval. -/
def Dec.dropZero (d : Dec) : Dec :=
  if d.digits % 10 = 0 then ⟨d.digits / 10, d.exponent + 1⟩ else d

/-- The shortest decimal that reads back as `x`. Grids of one to seventeen digits are tried in turn;
seventeen digits tell any two doubles apart. -/
def shortest (x : Binary) : Dec :=
  let s := x.span
  let k := s.magnitude
  let found := (List.range 17).findSome? fun n => s.onGrid (k - (n + 1 : Nat))
  (found.getD ⟨(s.rescale (k - 17)).value / (s.rescale (k - 17)).unit, k - 17⟩).dropZero

/-! ### Positional text -/

/-- A decimal written out in full: digits, zeros and, if there is a fraction, a point with at least
one digit before it. -/
def Dec.positional (d : Dec) : String :=
  let digits := Nat.toDigits 10 d.digits
  if 0 ≤ d.exponent then String.ofList (digits ++ List.replicate d.exponent.toNat '0')
  else
    let places := (-d.exponent).toNat
    let padded := List.replicate (places + 1 - digits.length) '0' ++ digits
    let whole := padded.length - places
    String.ofList (padded.take whole ++ '.' :: padded.drop whole)

end LineScript.Decimal

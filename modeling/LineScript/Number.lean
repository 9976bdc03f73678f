import LineScript.Decimal.Shortest

/-!
# Numbers

The numbers of the language are doubles. This file holds how they are written, how they are read,
and how they are used to count and to index.

  * `Number.render` writes a number positionally with the fewest digits that read back.
  * `Number.read?` reads a decimal text, with an optional sign, point and exponent.
  * `Number.ofCount` turns a count into a number, `Number.index?` a number into an index.
-/

namespace LineScript.Number

/-! ### Writing -/

/-- Text of a number. A negative zero keeps its sign; a NaN has none. -/
def render (x : Float) : String :=
  if x.isNaN then "NaN"
  else
    let bits := x.toBits.toNat
    let sign := if bits < Nat.pow 2 63 then "" else "-"
    let rest := bits % Nat.pow 2 63
    if x.isInf then sign ++ "inf"
    else if rest = 0 then sign ++ "0"
    else sign ++ (Decimal.shortest (.ofBits rest)).positional

/-! ### Reading -/

/-- Value of a list of decimal digits. -/
def ofDigits (ds : List Char) : Nat :=
  ds.foldl (fun n d => 10 * n + (d.toNat - '0'.toNat)) 0

/-- The double nearest to `digits * 10 ^ exponent`. -/
def scientific (digits : Nat) (exponent : Int) : Float :=
  if 0 ≤ exponent then Float.ofScientific digits false exponent.toNat
  else Float.ofScientific digits true (-exponent).toNat

/-- Splits off a leading sign; the flag says whether it is a minus. -/
def sign : List Char → Bool × List Char
  | '-' :: cs => (true, cs)
  | '+' :: cs => (false, cs)
  | cs => (false, cs)

/-- Reads an exponent part, which may be missing. -/
def exponent? : List Char → Option Int
  | [] => some 0
  | c :: cs =>
    let (negative, ds) := sign cs
    if (c = 'e' ∨ c = 'E') ∧ ds ≠ [] ∧ ds.all Char.isDigit then
      some (if negative then -(ofDigits ds : Int) else ofDigits ds)
    else none

/-- Reads an unsigned decimal: digits with an optional point, at least one of them, and an optional
exponent. -/
def decimal? (cs : List Char) : Option Float :=
  let whole := cs.takeWhile Char.isDigit
  let rest := cs.dropWhile Char.isDigit
  let (fraction, rest) := match rest with
    | '.' :: ds => (ds.takeWhile Char.isDigit, ds.dropWhile Char.isDigit)
    | _ => ([], rest)
  if whole.isEmpty && fraction.isEmpty then none
  else (exponent? rest).map fun e => scientific (ofDigits (whole ++ fraction)) (e - fraction.length)

/-- The words for numbers that have no decimal form, in any mixture of cases. -/
def word? (cs : List Char) : Option Float :=
  match cs.map Char.toLower with
  | ['i', 'n', 'f'] => some (1 / 0)
  | ['i', 'n', 'f', 'i', 'n', 'i', 't', 'y'] => some (1 / 0)
  | ['n', 'a', 'n'] => some (0 / 0)
  | _ => none

/-- Reads a number: an optional sign, then a decimal or one of the words `inf`, `infinity`, `nan`.
-/
def read? (text : String) : Option Float :=
  let (negative, cs) := sign text.toList
  ((decimal? cs).or (word? cs)).map fun x => if negative then -x else x

/-! ### Counting and indexing -/

/-- The double nearest to a count. -/
def ofCount (n : Nat) : Float :=
  Float.ofNat n

/-- `2 ^ 53 - 1`: no other whole number up to here or next to it is rounded to the same double. -/
def maxSafe : Float := 9007199254740991

/-- The index that a number denotes in a list of the given length: the number itself, if it is a
whole number from zero up to `maxSafe` and below the length. Negative zero is zero. -/
def index? (x : Float) (length : Nat) : Option Nat :=
  let k := x.toUInt64
  if 0 ≤ x ∧ x ≤ maxSafe ∧ k.toFloat == x ∧ k.toNat < length then some k.toNat else none

end LineScript.Number

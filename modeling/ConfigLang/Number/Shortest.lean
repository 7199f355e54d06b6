import ConfigLang.Number.Decimal
/-!
The decimal with the fewest digits that reads back as a given 64-bit number, and how it is written.
-/

set_option autoImplicit false

namespace ConfigLang

/-- A finite positive magnitude `m * 2 ^ q` measured in units of `10 ^ exponent`: it is
`m * scale / unit` of them. -/
structure Measure where
  scale : Nat
  unit : Nat

namespace Measure

def of (q exponent : Int) : Measure :=
  ⟨Nat.pow 2 q.toNat * Nat.pow 10 (-exponent).toNat,
    Nat.pow 2 (-q).toNat * Nat.pow 10 exponent.toNat⟩

end Measure

namespace Binary64

/-- How far below the number, in quarters of its last place, the numbers end that round to it.
Below a power of two the neighbour is half as far away. -/
def gapBelow (number : Binary64) : Nat :=
  if number.fraction = 0 ∧ 1 < number.exponentField then 1 else 2

/-- Whether `count` units of a measure lie among the decimals that round to the number. The ends
belong to them iff the significand is even. -/
def covers (number : Binary64) (measure : Measure) (count : Nat) : Bool :=
  let m := number.significand
  let lower := (4 * m - number.gapBelow) * measure.scale
  let upper := (4 * m + 2) * measure.scale
  let point := 4 * count * measure.unit
  if m % 2 = 0 then lower ≤ point && point ≤ upper else lower < point && point < upper

/-- The order of magnitude: the power of ten of the leading digit. -/
def order (number : Binary64) : Int :=
  let measure := Measure.of number.power (-324)
  Decimal.width (number.significand * measure.scale / measure.unit) - 325

/-- On the grid of decimals with `10 ^ exponent` as unit, the nearer of the two neighbours that
read back as the number. Of two at the same distance the greater is taken. -/
def neighbour? (number : Binary64) (exponent : Int) : Option Decimal :=
  let measure := Measure.of number.power exponent
  let scaled := number.significand * measure.scale
  let below := scaled / measure.unit
  let rest := scaled % measure.unit
  let lower := number.covers measure below
  let upper := number.covers measure (below + 1)
  if upper && (!lower || measure.unit ≤ 2 * rest) then some ⟨below + 1, exponent⟩
  else if lower then some ⟨below, exponent⟩
  else none

/-- Tries the grids from the coarsest on, `tries` of them. -/
def search (number : Binary64) : Nat → Int → Decimal
  | 0, exponent => ⟨0, exponent⟩
  | tries + 1, exponent =>
    match number.neighbour? exponent with
    | some decimal => decimal
    | none => number.search tries (exponent - 1)

/-- The shortest decimal that reads back as a finite number that is not zero. Seventeen digits
always suffice. -/
def shortest (number : Binary64) : Decimal :=
  number.search 17 number.order

end Binary64

/-- How decimals are written: which orders of magnitude are written without an exponent. -/
structure DecimalStyle where
  lowest : Int
  highest : Int

namespace DecimalStyle

/-- Digits with a point and at least one place after it. -/
def positional (digits : List Char) (exponent : Int) : List Char :=
  if 0 ≤ exponent then digits ++ List.replicate exponent.toNat '0' ++ ['.', '0']
  else
    let places := (-exponent).toNat
    let padded := List.replicate (places + 1 - digits.length) '0' ++ digits
    padded.take (padded.length - places) ++ '.' :: padded.drop (padded.length - places)

/-- One digit, the others after a point if there are any, and the exponent without padding. -/
def scientific (digits : List Char) (order : Int) : List Char :=
  let places := match digits.tail with
    | [] => []
    | rest => '.' :: rest
  digits.take 1 ++ places ++ 'e' :: (toString order).toList

/-- The decimal without trailing zeros, in the notation its magnitude asks for. -/
def write (style : DecimalStyle) (decimal : Decimal) : List Char :=
  let all := Nat.toDigits 10 decimal.digits
  let digits := (all.reverse.dropWhile (· = '0')).reverse
  let exponent := decimal.exponent + (all.length - digits.length)
  let order := exponent + digits.length - 1
  if style.lowest ≤ order && order ≤ style.highest then positional digits exponent
  else scientific digits order

end DecimalStyle

namespace Binary64

/-- Numbers from `10 ^ -4` up to `10 ^ 16` are written without an exponent. -/
def style : DecimalStyle := ⟨-4, 15⟩

/-- The text of a number. It reads back as the number, up to the bits of what is not a number. -/
def text (number : Binary64) : String :=
  if number.isNaN then "NaN"
  else
    let sign := if number.isNegative then "-" else ""
    let magnitude :=
      if number.isInfinite then "inf"
      else if number.isZero then "0.0"
      else String.ofList (style.write number.shortest)
    sign ++ magnitude

end Binary64

end ConfigLang

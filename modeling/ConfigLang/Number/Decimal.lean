import ConfigLang.Number.Binary64
/-!
Decimal numbers, how they are read from digits, and the 64-bit number nearest to one.
-/

set_option autoImplicit false

namespace ConfigLang

/-- The number `digits * 10 ^ exponent`. -/
structure Decimal where
  digits : Nat
  exponent : Int
deriving DecidableEq, Repr

namespace Decimal

/-- The value of a run of decimal digits. -/
def natural (digits : List Char) : Nat :=
  digits.foldl (fun value digit => value * 10 + (digit.toNat - '0'.toNat)) 0

/-- The number written with these digits before and after the point, times a power of ten. -/
def ofDigits (whole fraction : List Char) (power : Int) : Decimal :=
  ⟨natural (whole ++ fraction), power - fraction.length⟩

/-- How many digits a positive number has. -/
def width (number : Nat) : Nat :=
  (Nat.toDigits 10 number).length

/-- The nearest 64-bit number, a tie to the even neighbour. Magnitudes from `10 ^ 310` on are
infinite and those below `10 ^ -330` are zero, so that only numbers between are rounded. -/
def nearest (number : Decimal) : Binary64 :=
  let order := width number.digits + number.exponent
  if number.digits = 0 || order < -330 then .zero
  else if 310 < order then .infinity
  else .ofFloat (Float.ofScientific number.digits (number.exponent < 0) number.exponent.natAbs)

/-- Reads an exponent mark with an optional sign, or nothing at all. -/
def power? : List Char → Option Int
  | [] => some 0
  | mark :: rest =>
    if mark ≠ 'e' ∧ mark ≠ 'E' then none
    else
      let (negative, digits) := match rest with
        | '-' :: digits => (true, digits)
        | '+' :: digits => (false, digits)
        | digits => (false, digits)
      if digits.isEmpty || !digits.all Char.isDigit then none
      else some (if negative then -natural digits else natural digits)

/-- Reads digits with an optional point and an optional exponent. -/
def read? (text : List Char) : Option Decimal :=
  let whole := text.takeWhile Char.isDigit
  let rest := text.dropWhile Char.isDigit
  let (fraction, rest) := match rest with
    | '.' :: rest => (rest.takeWhile Char.isDigit, rest.dropWhile Char.isDigit)
    | rest => ([], rest)
  if whole.isEmpty && fraction.isEmpty then none
  else (power? rest).map (ofDigits whole fraction)

end Decimal

namespace Binary64

/-- Reads a magnitude: a decimal number or a name of a special value. -/
def magnitude? (text : List Char) : Option Binary64 :=
  if text = ['N', 'a', 'N'] then some nan
  else if text = ['i', 'n', 'f'] then some infinity
  else (Decimal.read? text).map Decimal.nearest

/-- Reads the text of a number with an optional sign. -/
def ofText? (text : String) : Option Binary64 :=
  match text.toList with
  | '-' :: rest => (magnitude? rest).map neg
  | '+' :: rest => magnitude? rest
  | chars => magnitude? chars

end Binary64

end ConfigLang

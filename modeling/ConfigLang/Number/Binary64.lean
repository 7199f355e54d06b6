/-!
Floating-point numbers of 64 bits as their bit patterns: two are the same number here iff they
have the same bits, while `same` and `less` compare as IEEE 754 does.
-/

set_option autoImplicit false

namespace ConfigLang

structure Binary64 where
  bits : UInt64
deriving DecidableEq, Hashable, Repr

namespace Binary64

def ofFloat (value : Float) : Binary64 :=
  ⟨value.toBits⟩

def toFloat (number : Binary64) : Float :=
  Float.ofBits number.bits

/-- The quiet not-a-number with a clear sign. -/
def nan : Binary64 := ⟨0x7FF8000000000000⟩

def infinity : Binary64 := ⟨0x7FF0000000000000⟩

def zero : Binary64 := ⟨0⟩

/-- The bits below the exponent field. -/
def fraction (number : Binary64) : Nat :=
  number.bits.toNat % 0x10000000000000

/-- The eleven bits of the exponent field. -/
def exponentField (number : Binary64) : Nat :=
  number.bits.toNat / 0x10000000000000 % 0x800

def isNegative (number : Binary64) : Bool :=
  0x8000000000000000 ≤ number.bits.toNat

def isNaN (number : Binary64) : Bool :=
  number.exponentField = 2047 && number.fraction ≠ 0

def isInfinite (number : Binary64) : Bool :=
  number.exponentField = 2047 && number.fraction = 0

def isZero (number : Binary64) : Bool :=
  number.exponentField = 0 && number.fraction = 0

/-- The whole number `m` of a finite magnitude `m * 2 ^ q`. -/
def significand (number : Binary64) : Nat :=
  if number.exponentField = 0 then number.fraction else 0x10000000000000 + number.fraction

/-- The power `q` of a finite magnitude `m * 2 ^ q`. -/
def power (number : Binary64) : Int :=
  max 1 number.exponentField - 1075

/-- Flips the sign, also of zeros and of what is not a number. -/
def neg (number : Binary64) : Binary64 :=
  ⟨number.bits ^^^ 0x8000000000000000⟩

def add (left right : Binary64) : Binary64 :=
  ofFloat (left.toFloat + right.toFloat)

def sub (left right : Binary64) : Binary64 :=
  ofFloat (left.toFloat - right.toFloat)

def mul (left right : Binary64) : Binary64 :=
  ofFloat (left.toFloat * right.toFloat)

def div (left right : Binary64) : Binary64 :=
  ofFloat (left.toFloat / right.toFloat)

/-- Numeric equality: zeros of both signs agree, and what is not a number equals nothing. -/
def same (left right : Binary64) : Bool :=
  left.toFloat == right.toFloat

/-- Numeric order, false whenever a side is not a number. -/
def less (left right : Binary64) : Bool :=
  left.toFloat < right.toFloat

/-- The number of magnitude `m * 2 ^ q`, for `m` below `2 ^ 53` and `q` at least `-1074`. The
significand is moved up until its top bit is set or the least power is reached. -/
def ofScaled (negative : Bool) (m : Nat) (q : Int) : Binary64 :=
  let shift := min (52 - m.log2) (q + 1074).toNat
  let moved := m <<< shift
  let magnitude :=
    if moved < 0x10000000000000 then moved
    else moved - 0x10000000000000 + (q - shift + 1075).toNat * 0x10000000000000
  ⟨UInt64.ofNat (if negative then magnitude + 0x8000000000000000 else magnitude)⟩

/-- The exact remainder of the quotient toward zero, with the sign of the dividend. -/
def mod (left right : Binary64) : Binary64 :=
  if left.isNaN || right.isNaN || left.isInfinite || right.isZero then nan
  else if right.isInfinite || left.isZero then left
  else
    let q := min left.power right.power
    let dividend := left.significand <<< (left.power - q).toNat
    let divisor := right.significand <<< (right.power - q).toNat
    ofScaled left.isNegative (dividend % divisor) q

end Binary64

end ConfigLang

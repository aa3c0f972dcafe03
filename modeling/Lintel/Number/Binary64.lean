/-!
# Binary floating point numbers of 64 bits

A number is its bit pattern: a sign bit, eleven bits of exponent and fifty-two bits of fraction.
All computation is exact arithmetic on natural numbers; nothing here depends on the machine.

`Binary64.ofRatio` rounds a quotient of natural numbers to the nearest number, a tie going to the
even neighbour. The bit pattern of the result is `(q + 1074) * 2^52 + m` for a significand `m` and
an exponent `q`, which stays right when rounding carries `m` to the next power of two and for
subnormal numbers, whose exponent is `-1074`.
-/

namespace Lintel

/-- A floating point number, given by its bits. -/
structure Binary64 where
  bits : UInt64
  deriving DecidableEq, Repr

namespace Binary64

def isNegative (x : Binary64) : Bool :=
  decide (Nat.pow 2 63 ≤ x.bits.toNat)

def exponentBits (x : Binary64) : Nat :=
  x.bits.toNat / Nat.pow 2 52 % Nat.pow 2 11

def fractionBits (x : Binary64) : Nat :=
  x.bits.toNat % Nat.pow 2 52

def isFinite (x : Binary64) : Bool :=
  decide (x.exponentBits < 2047)

def isNaN (x : Binary64) : Bool :=
  !x.isFinite && x.fractionBits != 0

def significand (x : Binary64) : Nat :=
  if x.exponentBits = 0 then x.fractionBits else Nat.pow 2 52 + x.fractionBits

/-- The exponent of a finite number: its size is `significand * 2 ^ exponent`. -/
def exponent (x : Binary64) : Int :=
  if x.exponentBits = 0 then -1074 else (x.exponentBits : Int) - 1075

def isZero (x : Binary64) : Bool :=
  x.isFinite && x.significand == 0

/-- The size of a finite number as a numerator and a denominator. -/
def ratio (x : Binary64) : Nat × Nat :=
  (x.significand * Nat.pow 2 x.exponent.toNat, Nat.pow 2 (-x.exponent).toNat)

/-- The quotient rounded to the nearest natural number, a tie going to the even one. -/
def roundDiv (num den : Nat) : Nat :=
  let q := num / den
  let r := num % den
  if 2 * r < den then q
  else if den < 2 * r then q + 1
  else if q % 2 = 0 then q else q + 1

/-- The bits of a size, with a sign. -/
def ofSize (negative : Bool) (size : Nat) : Binary64 :=
  ⟨UInt64.ofNat (size + if negative then Nat.pow 2 63 else 0)⟩

def infinityBits : Nat := 2047 * Nat.pow 2 52

def infinity (negative : Bool) : Binary64 := ofSize negative infinityBits

def nan : Binary64 := ofSize false (infinityBits + Nat.pow 2 51)

/-- The greatest `e` with `2 ^ e ≤ num / den`. -/
def ratioLog2 (num den : Nat) : Int :=
  let k : Int := (num.log2 : Int) - den.log2
  -- the lengths of numerator and denominator tell the logarithm up to one
  if num * Nat.pow 2 (-k).toNat < den * Nat.pow 2 k.toNat then k - 1 else k

/-- The number nearest to a quotient. -/
def ofRatio (negative : Bool) (num den : Nat) : Binary64 :=
  if num = 0 then ofSize negative 0
  else
    -- fifty-three digits of a normal number, fewer of one below the least exponent
    let q : Int := max (ratioLog2 num den - 52) (-1074)
    let m := roundDiv (num * Nat.pow 2 (-q).toNat) (den * Nat.pow 2 q.toNat)
    -- a significand that was rounded up carries over into the exponent by itself
    ofSize negative (min ((q + 1074).toNat * Nat.pow 2 52 + m) infinityBits)

/-- The number nearest to `digits * 10 ^ power`. Beyond four hundred places of decimal exponent
the result is zero or infinite anyway, so the power is cut there. -/
def ofDecimal (negative : Bool) (digits : Nat) (power : Int) : Binary64 :=
  if digits = 0 then ofSize negative 0
  else
    let places : Int := (Nat.toDigits 10 digits).length
    if places + power > 400 then infinity negative
    else if places + power < -400 then ofSize negative 0
    else ofRatio negative (digits * Nat.pow 10 power.toNat) (Nat.pow 10 (-power).toNat)

/-- A finite number rounded to `places` decimal places: the nearest multiple of `10 ^ -places`,
read as a number again. -/
def roundPlaces (x : Binary64) (places : Nat) : Binary64 :=
  if x.isFinite then
    let (num, den) := x.ratio
    ofRatio x.isNegative (roundDiv (num * Nat.pow 10 places) den) (Nat.pow 10 places)
  else x

/-- The integer a finite number without a fractional part stands for. -/
def toInt? (x : Binary64) : Option Int :=
  if x.isFinite then
    let (num, den) := x.ratio
    if num % den = 0 then some (if x.isNegative then -(num / den : Nat) else (num / den : Nat))
    else none
  else none

/-! ### Arithmetic -/

def neg (x : Binary64) : Binary64 :=
  ofSize (!x.isNegative) (x.bits.toNat % Nat.pow 2 63)

/-- A whole number over a denominator, rounded. -/
def ofSigned (num : Int) (den : Nat) : Binary64 :=
  ofRatio (decide (num < 0)) num.natAbs den

/-- The numerator of a finite number with its sign. -/
def signedNum (x : Binary64) : Int :=
  if x.isNegative then -(x.ratio.1 : Int) else x.ratio.1

/-- The sum of two numbers, rounded. A sum that is zero has no sign. -/
def add (x y : Binary64) : Binary64 :=
  if x.isNaN || y.isNaN then nan
  else if x.isFinite && y.isFinite then
    ofSigned (x.signedNum * y.ratio.2 + y.signedNum * x.ratio.2) (x.ratio.2 * y.ratio.2)
  -- one of them is infinite and decides
  else if x.isFinite then y
  else if y.isFinite || x.isNegative == y.isNegative then x
  else nan

/-- A number times a positive whole number, which is rounded first; nothing if that is too large
to be a floating point number. -/
def scale? (x : Binary64) (n : Nat) : Option Binary64 :=
  let f := ofRatio false n 1
  if f.isFinite then
    some (if x.isFinite then ofRatio x.isNegative (x.ratio.1 * f.ratio.1) (x.ratio.2 * f.ratio.2)
      else x)
  else none

end Binary64

end Lintel

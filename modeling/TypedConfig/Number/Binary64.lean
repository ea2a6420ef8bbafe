import TypedConfig.Number.Integer

/-!
# Binary floating-point numbers

`Binary64` is a number of 64 bits: a sign, 11 bits of exponent and 52 of fraction. A finite number
is `± significand * 2 ^ scale` exactly, and everything here is integer arithmetic on those two.

* `Binary64.equals`: equality of numbers. A NaN differs from itself, the two zeros are equal.
* `Binary64.toInt?`: the integer that the number is.
* `Binary64.ofRatio`: the nearest number to a fraction, ties to the even significand.
-/

namespace TypedConfig.Number

/-- A number in 64 bits. Equality with `=` is equality of the bits. -/
structure Binary64 where
  bits : UInt64
  deriving DecidableEq, Repr

/-! ## Rounding to a format -/

/-- A binary format: the bits of a significand, the scale of the smallest numbers and the number of
exponents that finite numbers have. -/
structure Format where
  precision : Nat
  minScale : Int
  exponents : Nat

/-- The format of 64 bits. -/
def Format.double : Format := ⟨53, -1074, 2046⟩

/-- The format of 32 bits. -/
def Format.single : Format := ⟨24, -149, 254⟩

/-- The number of numbers of a format with one exponent. -/
def Format.step (f : Format) : Nat := 1 <<< (f.precision - 1)

/-- The integer nearest to a fraction, ties to the even one. -/
def roundHalfEven (num den : Nat) : Nat :=
  let q := num / den
  let r := num % den
  if 2 * r < den then q
  else if den < 2 * r then q + 1
  else if q % 2 = 0 then q else q + 1

/-- `num / den` divided by a power of two, as a fraction. -/
def scaleDown (num den : Nat) (scale : Int) : Nat × Nat :=
  if 0 ≤ scale then (num, den <<< scale.toNat) else (num <<< (-scale).toNat, den)

/-- The largest `e` with `2 ^ e ≤ num / den`, for a fraction above zero. -/
def binaryExponent (num den : Nat) : Int :=
  let guess : Int := (Nat.log2 num : Int) - Nat.log2 den
  let (n, d) := scaleDown num den guess
  if d ≤ n then guess else guess - 1

/-- The code of the number of a format nearest to `num / den`: the number of numbers of the format
from zero up to it. The first code past the finite numbers stands for infinity. -/
def Format.code (f : Format) (num den : Nat) : Nat :=
  if num = 0 then 0
  else
    let scale := max (binaryExponent num den - (f.precision - 1 : Nat)) f.minScale
    let (n, d) := scaleDown num den scale
    min ((scale - f.minScale).toNat * f.step + roundHalfEven n d) ((f.exponents + 1) * f.step)

namespace Binary64

/-! ## Parts -/

def negative (x : Binary64) : Bool := 1 <<< 63 ≤ x.bits.toNat

def exponent (x : Binary64) : Nat := x.bits.toNat / Format.double.step % 2048

def fraction (x : Binary64) : Nat := x.bits.toNat % Format.double.step

def isFinite (x : Binary64) : Bool := x.exponent != 2047

def isNaN (x : Binary64) : Bool := x.exponent == 2047 && x.fraction != 0

/-- The integer that a finite number is a multiple of a power of two by. -/
def significand (x : Binary64) : Nat :=
  if x.exponent = 0 then x.fraction else x.fraction + Format.double.step

/-- The exponent of that power of two. -/
def scale (x : Binary64) : Int := (max x.exponent 1 : Nat) - 1075

/-- The number with a sign and a code (`Format.code`). -/
def ofCode (negative : Bool) (code : Nat) : Binary64 :=
  ⟨UInt64.ofNat (if negative then (1 <<< 63) + code else code)⟩

def signedNaN (negative : Bool) : Binary64 :=
  ofCode negative (2047 * Format.double.step + (1 <<< 51))

def nan : Binary64 := signedNaN false

def infinity (negative : Bool) : Binary64 := ofCode negative (2047 * Format.double.step)

/-! ## Equality and conversions -/

/-- The two are the same number. -/
def equals (x y : Binary64) : Bool :=
  !x.isNaN && !y.isNaN && (x == y || (x.bits <<< 1 == 0 && y.bits <<< 1 == 0))

/-- The magnitude of a finite number as a fraction. -/
def magnitude (x : Binary64) : Nat × Nat := scaleDown x.significand 1 (-x.scale)

/-- The number nearest to a fraction, and an infinity past the finite numbers. -/
def ofRatio (negative : Bool) (num den : Nat) : Binary64 :=
  ofCode negative (Format.double.code num den)

/-- The number nearest to an integer. -/
def ofInt (i : Int) : Binary64 := ofRatio (i < 0) i.natAbs 1

/-- The integer that a finite number is. -/
def toInt? (x : Binary64) : Option Int :=
  let (num, den) := x.magnitude
  if x.isFinite && num % den == 0 then some (signed x.negative (num / den : Nat)) else none

/-- The number in 64 bits that has a sign and a code in 32 bits. -/
def ofSingleCode (negative : Bool) (code : Nat) : Binary64 :=
  let step := Format.single.step
  if (Format.single.exponents + 1) * step ≤ code then infinity negative
  else
    let significand := if code < step then code else step + code % step
    let scale : Int := Format.single.minScale + (code / step - 1 : Nat)
    let (num, den) := scaleDown significand 1 (-scale)
    ofRatio negative num den

/-- The nearest number that 32 bits can hold. -/
def toSingle (x : Binary64) : Binary64 :=
  if x.isFinite then
    let (num, den) := x.magnitude
    ofSingleCode x.negative (Format.single.code num den)
  else x

/-- The number nearest to an integer among those that 32 bits can hold. -/
def singleOfInt (i : Int) : Binary64 :=
  ofSingleCode (i < 0) (Format.single.code i.natAbs 1)

end Binary64

end TypedConfig.Number

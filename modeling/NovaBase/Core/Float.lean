import Mathlib.Algebra.Group.Nat.Defs
import Mathlib.Order.Basic
import Mathlib.Order.Defs.LinearOrder
import Mathlib.Algebra.Order.Group.Int

/-!
# IEEE-754 double precision on bit patterns

A double is its 64 bits. Every finite double is an integer multiple of
`2 ^ -1074`, so the arithmetic operators work on exact scaled integers and
round once, to nearest with ties to even. Results that are not finite are told
apart only by not being finite, which is all the database asks of them.
-/

namespace NovaBase

/-- An `f64` as its bit pattern. -/
structure F64 where
  bits : UInt64
  deriving DecidableEq, Repr

namespace F64

/-- The biased exponent field. -/
def exponentField (x : F64) : Nat := x.bits.toNat / 2 ^ 52 % 2048

/-- The fraction field. -/
def fraction (x : F64) : Nat := x.bits.toNat % 2 ^ 52

/-- The sign bit. -/
def isSignNegative (x : F64) : Bool := decide (2 ^ 63 ≤ x.bits.toNat)

/-- All exponent bits are set, and some fraction bit. -/
def isNaN (x : F64) : Bool := x.exponentField == 2047 && x.fraction != 0

/-- All exponent bits are set, and no fraction bit. -/
def isInfinite (x : F64) : Bool := x.exponentField == 2047 && x.fraction == 0

/-- Neither an infinity nor NaN. -/
def isFinite (x : F64) : Bool := x.exponentField != 2047

/-- Both zeros are zero. -/
def isZero (x : F64) : Bool := x.bits.toNat % 2 ^ 63 == 0

/-- The quiet `NaN` that `f64::NAN` denotes. -/
def nan : F64 := ⟨0x7ff8000000000000⟩

/-- The operator `==` on floats: `NaN` equals nothing and the two zeros are equal. -/
def ieeeEq (x y : F64) : Bool :=
  !x.isNaN && !y.isNaN && (x.bits == y.bits || (x.isZero && y.isZero))

/-- The signed integer that `total_cmp` compares: negative patterns with their low bits flipped. -/
def totalKey (x : F64) : Int :=
  if x.bits.toNat < 2 ^ 63 then x.bits.toNat else 2 ^ 63 - 1 - x.bits.toNat

theorem totalKey_injective : Function.Injective totalKey := by
  intro x y h
  have hx := x.bits.toNat_lt
  have hy := y.bits.toNat_lt
  have hbits : x.bits.toNat = y.bits.toNat := by
    unfold totalKey at h
    split at h <;> split at h <;> omega
  cases x
  cases y
  exact congrArg F64.mk (UInt64.toNat_inj.mp hbits)

/-- A pattern with the given sign and the given 63 low bits. -/
def ofSign (negative : Bool) (magnitude : Nat) : F64 :=
  ⟨UInt64.ofNat (if negative then 2 ^ 63 + magnitude else magnitude)⟩

/-- The pattern of an infinity without its sign. -/
def infinityBits : Nat := 2047 * 2 ^ 52

/-- The infinity of a sign. -/
def infinity (negative : Bool) : F64 := ofSign negative infinityBits

/-- The magnitude of a finite double, counted in units of `2 ^ -1074`. -/
def scaled (x : F64) : Nat :=
  if x.exponentField = 0 then x.fraction else (2 ^ 52 + x.fraction) * 2 ^ (x.exponentField - 1)

/-- The value of a finite double in units of `2 ^ -1074`, with its sign. -/
def signedScaled (x : F64) : Int := if x.isSignNegative then -(x.scaled : Int) else x.scaled

/-- The quotient rounded to the nearest integer, ties to even. -/
def roundHalfEven (numerator denominator : Nat) : Nat :=
  let quotient := numerator / denominator
  let twice := 2 * (numerator % denominator)
  if twice < denominator then quotient
  else if denominator < twice then quotient + 1
  else if quotient % 2 = 0 then quotient else quotient + 1

/-- The double nearest to `numerator / denominator` units of `2 ^ -1074`. -/
def round (negative : Bool) (numerator denominator : Nat) : F64 :=
  let shift := Nat.log2 (numerator / denominator) - 52
  let magnitude := shift * 2 ^ 52 + roundHalfEven numerator (denominator * 2 ^ shift)
  ofSign negative (min magnitude infinityBits)

/-- Unary minus flips the sign bit. -/
def neg (x : F64) : F64 := ofSign (!x.isSignNegative) (x.bits.toNat % 2 ^ 63)

/-- The sum, rounded to nearest. Opposite infinities have none. -/
def add (x y : F64) : F64 :=
  if x.isFinite && y.isFinite then
    let sum := x.signedScaled + y.signedScaled
    if sum = 0 then ofSign (x.isSignNegative && y.isSignNegative) 0
    else round (decide (sum < 0)) sum.natAbs 1
  else if x.isNaN || y.isNaN then nan
  else if x.isFinite then y
  else if y.isFinite || x.isSignNegative == y.isSignNegative then x
  else nan

/-- The difference is the sum with the negated number. -/
def sub (x y : F64) : F64 := add x (neg y)

/-- The product, rounded to nearest. Zero times infinity has none. -/
def mul (x y : F64) : F64 :=
  let negative := x.isSignNegative != y.isSignNegative
  if x.isFinite && y.isFinite then round negative (x.scaled * y.scaled) (2 ^ 1074)
  else if x.isNaN || y.isNaN || x.isZero || y.isZero then nan
  else infinity negative

/-- The quotient, rounded to nearest. Division by zero gives an infinity. -/
def div (x y : F64) : F64 :=
  let negative := x.isSignNegative != y.isSignNegative
  if x.isNaN || y.isNaN then nan
  else if x.isFinite then
    if y.isInfinite then ofSign negative 0
    else if y.isZero then (if x.isZero then nan else infinity negative)
    else round negative (x.scaled * 2 ^ 1074) y.scaled
  else if y.isFinite then infinity negative
  else nan

/-- The operator `%`: the remainder of truncated division, which is exact. -/
def rem (x y : F64) : F64 :=
  if x.isFinite && !y.isNaN then
    if y.isInfinite then x
    else if y.isZero then nan
    else round x.isSignNegative (x.scaled % y.scaled) 1
  else nan

end F64

end NovaBase

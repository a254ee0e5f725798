set_option autoImplicit false

/-! # Double precision numbers

A floating point number is its 64 bits, so that every operation on it is exact arithmetic on
natural numbers. A finite number is `mantissa * 2 ^ exponent` up to its sign. -/

namespace MonkeyFormat

/-- A double precision number, given by its bits. -/
structure Binary64 where
  bits : UInt64
deriving DecidableEq, Inhabited

namespace Binary64

/-- The weight of the sign bit, `2 ^ 63`. -/
def signWeight : Nat := 0x8000000000000000

/-- The weight of the first digit of a normal significand, which is not stored: `2 ^ 52`. -/
def leadWeight : Nat := 0x10000000000000

/-- Is the sign bit set? -/
def isNegative (x : Binary64) : Bool := x.bits.toNat ≥ signWeight

/-- The biased exponent. -/
def exponentField (x : Binary64) : Nat := x.bits.toNat / leadWeight % 2048

/-- The stored part of the significand. -/
def fraction (x : Binary64) : Nat := x.bits.toNat % leadWeight

/-- Is `x` not a number? -/
def isNaN (x : Binary64) : Bool := x.exponentField == 2047 && x.fraction != 0

/-- Is `x` one of the two infinities? -/
def isInfinite (x : Binary64) : Bool := x.exponentField == 2047 && x.fraction == 0

/-- Is `x` a real number? -/
def isFinite (x : Binary64) : Bool := x.exponentField != 2047

/-- The significand as an integer. -/
def mantissa (x : Binary64) : Nat :=
  if x.exponentField = 0 then x.fraction else x.fraction + leadWeight

/-- The power of two that scales the significand. -/
def exponent (x : Binary64) : Int := (max x.exponentField 1 : Nat) - 1075

/-- Is `x` a finite number without a fractional part? -/
def isInteger (x : Binary64) : Bool :=
  x.isFinite && (0 ≤ x.exponent || x.mantissa % Nat.pow 2 (-x.exponent).toNat == 0)

/-- The number that is not a number. -/
def nan : Binary64 := ⟨0x7ff8000000000000⟩

/-- Puts a sign on the bits of a magnitude. -/
def withSign (negative : Bool) (magnitude : Nat) : Binary64 :=
  ⟨UInt64.ofNat (if negative then magnitude + signWeight else magnitude)⟩

/-- Positive or negative infinity. -/
def infinity (negative : Bool) : Binary64 := withSign negative 0x7ff0000000000000

/-- Positive or negative zero. -/
def zero (negative : Bool) : Binary64 := withSign negative 0

/-- `a / b` rounded to the nearest integer, a tie to the even neighbour. -/
def roundDiv (a b : Nat) : Nat :=
  let q := a / b
  let r := a % b
  if 2 * r < b then q
  else if b < 2 * r then q + 1
  else if q % 2 = 0 then q else q + 1

/-- The number nearest to `num / den`, a tie to the even significand; infinity beyond the range. -/
def ofRatio (negative : Bool) (num den : Nat) : Binary64 :=
  if num = 0 || den = 0 then zero negative
  else
    let low : Int := (Nat.log2 num : Int) - Nat.log2 den - 53
    -- `num / den * 2 ^ (-low)` lies between `2 ^ 52` and `2 ^ 54`
    let scaled (e : Int) : Nat × Nat :=
      if e ≤ 0 then (num * Nat.pow 2 (-e).toNat, den) else (num, den * Nat.pow 2 e.toNat)
    let tight := if (scaled low).1 ≥ 2 * leadWeight * (scaled low).2 then low + 1 else low
    let e := max tight (-1074)
    let q := roundDiv (scaled e).1 (scaled e).2
    let magnitude := if q < leadWeight then q else (e + 1074).toNat * leadWeight + q
    if magnitude ≥ 0x7ff0000000000000 then infinity negative else withSign negative magnitude

/-- The number nearest to `digits * 10 ^ power`. -/
def ofDecimal (negative : Bool) (digits : Nat) (power : Int) : Binary64 :=
  let size := (Nat.toDigits 10 digits).length
  if digits = 0 then zero negative
  else if (size : Int) + power > 400 then infinity negative
  else if (size : Int) + power < -400 then zero negative
  else if 0 ≤ power then ofRatio negative (digits * Nat.pow 10 power.toNat) 1
  else ofRatio negative digits (Nat.pow 10 (-power).toNat)

/-- The magnitude of a finite number as a quotient of two integers. -/
def ratio (x : Binary64) : Nat × Nat :=
  if 0 ≤ x.exponent then (x.mantissa * Nat.pow 2 x.exponent.toNat, 1)
  else (x.mantissa, Nat.pow 2 (-x.exponent).toNat)

/-- Does the finite number `x` equal the integer `n`? -/
def equalsInt (x : Binary64) (n : Int) : Bool :=
  x.isFinite && x.ratio.1 == n.natAbs * x.ratio.2 &&
    (n == 0 || x.isNegative == decide (n < 0))

/-- Equality of numbers: the two zeros are equal, and a NaN equals nothing. -/
def equals (x y : Binary64) : Bool :=
  !x.isNaN && !y.isNaN && (x.bits == y.bits || (x.mantissa == 0 && y.mantissa == 0 &&
    x.isFinite && y.isFinite))

end Binary64

end MonkeyFormat

/-!
# Floating-point numbers of 64 bits

A number is its interchange bit pattern. A finite pattern stands for the exact value
`± coefficient · 2 ^ exponent`, and every operation here works on these integers: comparison,
rounding of a fraction to the nearest number with ties to the even one, and rounding to the
nearest integer with ties away from zero.
-/

namespace TypedDoc.Numeral

/-- A floating-point number, given by its bit pattern. -/
structure Binary64 where
  bits : UInt64
deriving DecidableEq, Repr, Inhabited

namespace Binary64

/-- The sign bit. -/
def isNegative (x : Binary64) : Bool := 1 <<< 63 ≤ x.bits.toNat

/-- The biased exponent, below 2048. -/
def exponentField (x : Binary64) : Nat := x.bits.toNat >>> 52 % 2048

/-- The stored part of the coefficient, below `2 ^ 52`. -/
def fractionField (x : Binary64) : Nat := x.bits.toNat % (1 <<< 52)

/-- Neither infinite nor a NaN. -/
def isFinite (x : Binary64) : Bool := x.exponentField != 2047

/-- No number. -/
def isNaN (x : Binary64) : Bool := x.exponentField == 2047 && x.fractionField != 0

/-- Zero of either sign. -/
def isZero (x : Binary64) : Bool := x.exponentField == 0 && x.fractionField == 0

/-- The integer coefficient of a finite number. -/
def coefficient (x : Binary64) : Nat :=
  if x.exponentField = 0 then x.fractionField else (1 <<< 52) + x.fractionField

/-- The power of two that belongs to the coefficient. -/
def exponent (x : Binary64) : Int :=
  if x.exponentField = 0 then -1074 else x.exponentField - 1075

/-- The number with the given sign and the given bits below the sign bit. -/
def ofSignMagnitude (negative : Bool) (magnitude : Nat) : Binary64 :=
  ⟨UInt64.ofNat ((if negative then 1 <<< 63 else 0) + magnitude)⟩

/-- The bits of infinity below the sign bit, past those of every finite number. -/
def infinityMagnitude : Nat := 2047 <<< 52

def infinity (negative : Bool) : Binary64 := ofSignMagnitude negative infinityMagnitude

def nan (negative : Bool) : Binary64 := ofSignMagnitude negative (infinityMagnitude + (1 <<< 51))

def zero (negative : Bool) : Binary64 := ofSignMagnitude negative 0

/-- Equality of numbers: no NaN equals anything, and the two zeros are equal. -/
def beq (x y : Binary64) : Bool :=
  !x.isNaN && !y.isNaN && (x.bits == y.bits || (x.isZero && y.isZero))

instance : BEq Binary64 := ⟨beq⟩

/-- The quotient rounded to the nearest integer, a half to the even one. -/
def roundDiv (num den : Nat) : Nat :=
  let q := num / den
  let r := num % den
  if 2 * r < den then q else if 2 * r = den then q + q % 2 else q + 1

/-- The fraction times a power of two, as a fraction. -/
def scaleBinary (num den : Nat) (e : Int) : Nat × Nat :=
  if 0 ≤ e then (num <<< e.toNat, den) else (num, den <<< (-e).toNat)

/-- The greatest `k` with `2 ^ k ≤ num / den`, for a positive fraction. -/
def floorLog2 (num den : Nat) : Int :=
  let guess : Int := num.log2 - den.log2
  let scaled := scaleBinary num den (-guess)
  if scaled.2 ≤ scaled.1 then guess else guess - 1

/-- The exponent of the unit in the last place of numbers near a positive fraction. -/
def unitExponent (num den : Nat) : Int := max (-1074) (floorLog2 num den - 52)

/-- The number nearest to a fraction, of two equally near ones the one with the even
coefficient. Fractions past the greatest finite number give infinity. -/
def ofRatio (negative : Bool) (num den : Nat) : Binary64 :=
  if num = 0 then zero negative
  else
    let e := unitExponent num den
    let scaled := scaleBinary num den (-e)
    let coefficient := roundDiv scaled.1 scaled.2
    ofSignMagnitude negative (min (((e + 1074).toNat <<< 52) + coefficient) infinityMagnitude)

/-- The number nearest to an integer. -/
def ofInt (n : Int) : Binary64 := ofRatio (n < 0) n.natAbs 1

/-- The absolute value of a finite number as a fraction. -/
def ratio (x : Binary64) : Nat × Nat := scaleBinary x.coefficient 1 x.exponent

/-- A finite number rounded to the nearest integer, a half away from zero. -/
def round (x : Binary64) : Int :=
  let n := (2 * x.ratio.1 + x.ratio.2) / (2 * x.ratio.2)
  if x.isNegative then -n else n

/-- The value of a floating-point number of 32 bits. -/
def ofBinary32 (bits : UInt32) : Binary64 :=
  let n := bits.toNat
  let negative : Bool := 1 <<< 31 ≤ n
  let exponentField : Nat := n >>> 23 % 256
  let fraction : Nat := n % (1 <<< 23)
  if exponentField = 255 then
    if fraction = 0 then infinity negative else nan negative
  else
    let coefficient := if exponentField = 0 then fraction else (1 <<< 23) + fraction
    let e : Int := max exponentField 1 - 150
    let scaled := scaleBinary coefficient 1 e
    ofRatio negative scaled.1 scaled.2

end Binary64

end TypedDoc.Numeral

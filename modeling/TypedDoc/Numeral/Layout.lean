import TypedDoc.Numeral.Shortest

/-!
# The layout of floating-point numbers

How the digits of a shortest decimal are laid out: with a point among them, or with one digit
before the point and an exponent. A layout says where the one form ends and the other begins.
-/

namespace TypedDoc.Numeral

/-- The choices that a text form of floating-point numbers leaves open. -/
structure Layout where
  /-- The least position of the point that is written without an exponent. -/
  lowest : Int
  /-- The greatest such position. -/
  highest : Int
  /-- Whether an exponent that is not negative has a plus sign. -/
  plus : Bool
  tie : Shortest.Tie
deriving Repr

namespace Layout

/-- The digits without the zeros at their end. -/
def significant (ds : List Char) : List Char := (ds.reverse.dropWhile (· == '0')).reverse

/-- Digits with the point at position `p`, with a digit on either side of it. -/
def positional (ds : List Char) (p : Int) : List Char :=
  if p ≤ 0 then '0' :: '.' :: (List.replicate (-p).toNat '0' ++ ds)
  else if ds.length ≤ p then ds ++ List.replicate (p.toNat - ds.length) '0' ++ ['.', '0']
  else ds.take p.toNat ++ '.' :: ds.drop p.toNat

/-- Digits with the point after the first one, if more follow, and the exponent. -/
def scientific (plus : Bool) (ds : List Char) (p : Int) : List Char :=
  let e := p - 1
  let head := match ds with
    | [d] => [d]
    | d :: rest => d :: '.' :: rest
    | [] => []
  let sign := if e < 0 then ['-'] else if plus then ['+'] else []
  head ++ 'e' :: sign ++ Nat.toDigits 10 e.natAbs

/-- The absolute value of a finite number. -/
def magnitude (layout : Layout) (x : Binary64) : List Char :=
  if x.isZero then ['0', '.', '0']
  else
    let (coefficient, exponent) := Shortest.decimal layout.tie x
    let digits := Nat.toDigits 10 coefficient
    let p := digits.length + exponent
    if layout.lowest ≤ p ∧ p ≤ layout.highest then positional (significant digits) p
    else scientific layout.plus (significant digits) p

/-- A finite number. -/
def finite (layout : Layout) (x : Binary64) : String :=
  String.ofList (if x.isNegative then '-' :: layout.magnitude x else layout.magnitude x)

/-- Any number. -/
def text (layout : Layout) (x : Binary64) : String :=
  if x.isFinite then layout.finite x
  else if x.isNaN then "NaN"
  else if x.isNegative then "-inf"
  else "inf"

end Layout

end TypedDoc.Numeral

import TypedDoc.Numeral.Decimal

/-!
# Shortest decimals

The decimal with the fewest digits that is read back as a given number. For each count of digits
only the two neighbours of the value on the grid of that many digits can be read back, so the
first count with a hit gives the shortest decimal; of two hits the nearer one is taken.
-/

namespace TypedDoc.Numeral.Shortest

open Binary64 (ratio)

/-- What becomes of a value halfway between two decimals. -/
inductive Tie where
  /-- The greater decimal is taken. -/
  | up
  /-- The decimal with the even last digit is taken. -/
  | even
deriving DecidableEq, Repr

/-- The position of the point: the `k` with `10 ^ (k - 1) ≤ num / den < 10 ^ k`, for a positive
fraction. -/
def pointPosition (num den : Nat) : Int :=
  if den ≤ num then Decimal.width (num / den)
  else 1 - (Decimal.width ((den - 1) / num) : Int)

/-- Whether a positive decimal is read back as the absolute value of `x`. -/
def readsBack (x : Binary64) (coefficient : Nat) (exponent : Int) : Bool :=
  (Decimal.toBinary64 ⟨x.isNegative, coefficient, exponent⟩).bits == x.bits

/-- The nearest decimal of `n` digits that is read back as `x`, if there is one. -/
def withDigits? (tie : Tie) (x : Binary64) (n : Nat) : Option (Nat × Int) :=
  let (num, den) := ratio x
  let e := pointPosition num den - n
  let scaled := Decimal.scaleDecimal num den (-e)
  let below := scaled.1 / scaled.2
  let rest := scaled.1 % scaled.2
  let upward :=
    if 2 * rest = scaled.2 then tie == .up || below % 2 == 1 else scaled.2 < 2 * rest
  match readsBack x below e, readsBack x (below + 1) e with
  | true, true => some (if upward then below + 1 else below, e)
  | true, false => some (below, e)
  | false, true => some (below + 1, e)
  | false, false => none

/-- All digits of the value. -/
def exact (x : Binary64) : Nat × Int :=
  if 0 ≤ x.exponent then (x.coefficient <<< x.exponent.toNat, 0)
  else (x.coefficient * Nat.pow 5 (-x.exponent).toNat, x.exponent)

/-- The coefficient and the exponent of the shortest decimal for a finite number. -/
def decimal (tie : Tie) (x : Binary64) : Nat × Int :=
  ((List.range' 1 17).findSome? (withDigits? tie x)).getD (exact x)

end TypedDoc.Numeral.Shortest

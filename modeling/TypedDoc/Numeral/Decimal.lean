import TypedDoc.Numeral.Binary64
import TypedDoc.Numeral.Integer

/-!
# Decimal fractions

The text of a floating-point number is an optional sign and then `inf`, `infinity` or `nan` in any
case, or digits with at most one point and at least one digit, and an optional exponent. A decimal
is rounded to the nearest floating-point number, whatever its length.
-/

namespace TypedDoc.Numeral

/-- The decimal fraction `± coefficient · 10 ^ exponent`. -/
structure Decimal where
  negative : Bool
  coefficient : Nat
  exponent : Int
deriving DecidableEq, Repr

namespace Decimal

/-- Why a text is no floating-point number. -/
inductive Fault where
  | empty
  | malformed
deriving DecidableEq, Repr

/-- The text of a fault. -/
def Fault.message : Fault → String
  | empty => "cannot parse float from empty string"
  | malformed => "invalid float literal"

/-- The number of decimal digits; zero has none. -/
def width (n : Nat) : Nat := if n = 0 then 0 else (Nat.toDigits 10 n).length

/-- The fraction times a power of ten, as a fraction. -/
def scaleDecimal (num den : Nat) (e : Int) : Nat × Nat :=
  if 0 ≤ e then (num * Nat.pow 10 e.toNat, den) else (num, den * Nat.pow 10 (-e).toNat)

/-- The nearest floating-point number. -/
def toBinary64 (d : Decimal) : Binary64 :=
  let scaled := scaleDecimal d.coefficient 1 d.exponent
  .ofRatio d.negative scaled.1 scaled.2

/-- The leading digits and what follows them. -/
def spanDigits (cs : List Char) : List Char × List Char :=
  (cs.takeWhile Char.isDigit, cs.dropWhile Char.isDigit)

/-- The value of a digit. -/
def digit (c : Char) : Nat := c.toNat - 48

/-- A number `high * scale + low` that grows by digits. They are gathered in the low part, so that
a long high part is not multiplied for each of them. -/
structure Growing where
  high : Nat
  scale : Nat := 1
  low : Nat := 0

namespace Growing

def value (g : Growing) : Nat := g.high * g.scale + g.low

/-- One more digit at the end. -/
def push (g : Growing) (c : Char) : Growing :=
  if g.scale < 1000000000000000000 then ⟨g.high, 10 * g.scale, 10 * g.low + digit c⟩
  else ⟨g.value, 10, digit c⟩

theorem value_push (g : Growing) (c : Char) : (g.push c).value = 10 * g.value + digit c := by
  simp only [push]
  split
  · simp only [value, Nat.mul_add, Nat.mul_left_comm, Nat.add_assoc]
  · simp only [value, Nat.mul_comm]

end Growing

/-- The number that digits denote after `n`. -/
def ofDigits (n : Nat) (ds : List Char) : Nat := (ds.foldl Growing.push { high := n }).value

theorem value_foldl_push (ds : List Char) (g : Growing) :
    (ds.foldl Growing.push g).value = ds.foldl (fun n c => 10 * n + digit c) g.value := by
  induction ds generalizing g with
  | nil => rfl
  | cons c ds ih => rw [List.foldl_cons, List.foldl_cons, ih, Growing.value_push]

theorem ofDigits_eq_foldl (n : Nat) (ds : List Char) :
    ofDigits n ds = ds.foldl (fun n c => 10 * n + digit c) n := by
  rw [ofDigits, value_foldl_push]
  simp [Growing.value]

/-- The number that the digits of an exponent denote. It stops growing once it has passed
65536, where every decimal is far out of range. -/
def ofExponentDigits (ds : List Char) : Nat :=
  ds.foldl (fun n c => if n < 65536 then 10 * n + digit c else n) 0

/-- The exponent part: nothing, or a mark, an optional sign and at least one digit. -/
def readExponent : List Char → Option Int
  | [] => some 0
  | c :: cs =>
    if c != 'e' && c != 'E' then none
    else
      let (negative, ds) : Bool × List Char := match cs with
        | '-' :: ds => (true, ds)
        | '+' :: ds => (false, ds)
        | ds => (false, ds)
      if ds.isEmpty || !ds.all Char.isDigit then none
      else if negative then some (-(ofExponentDigits ds : Int))
      else some (ofExponentDigits ds)

/-- Digits with at most one point, and an exponent part. -/
def readUnsigned (negative : Bool) (cs : List Char) : Option Decimal := do
  let (whole, rest) := spanDigits cs
  let (fraction, rest) := match rest with
    | '.' :: rest => spanDigits rest
    | rest => ([], rest)
  if whole.isEmpty && fraction.isEmpty then failure
  let e ← readExponent rest
  return ⟨negative, ofDigits (ofDigits 0 whole) fraction, e - fraction.length⟩

/-- The text after the sign. -/
def readMagnitude (negative : Bool) (cs : List Char) : Option Binary64 :=
  match cs.map Char.toLower with
  | ['n', 'a', 'n'] => some (.nan negative)
  | ['i', 'n', 'f'] | ['i', 'n', 'f', 'i', 'n', 'i', 't', 'y'] => some (.infinity negative)
  | _ => (readUnsigned negative cs).map toBinary64

/-- The floating-point number that a text denotes. -/
def read (cs : List Char) : Except Fault Binary64 :=
  let number? := match cs with
    | '-' :: rest => readMagnitude true rest
    | '+' :: rest => readMagnitude false rest
    | rest => readMagnitude false rest
  match cs, number? with
  | [], _ => .error .empty
  | _, none => .error .malformed
  | _, some x => .ok x

end Decimal

end TypedDoc.Numeral

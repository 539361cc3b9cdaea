/-!
# Decimal integers

Reading of base-10 integers that fit 64 bits. The text is an optional sign and at least one
digit, leading zeros allowed. Reading stops at the first digit that does not fit or at the first
character that is no digit, whichever comes first.
-/

namespace TypedDoc.Numeral.Integer

/-- Why a text is no integer of 64 bits. -/
inductive Fault where
  | empty
  | digit
  | tooLarge
  | tooSmall
deriving DecidableEq, Repr

/-- The text of a fault. -/
def Fault.message : Fault → String
  | empty => "cannot parse integer from empty string"
  | digit => "invalid digit found in string"
  | tooLarge => "number too large to fit in target type"
  | tooSmall => "number too small to fit in target type"

/-- The number that a character denotes as a decimal digit. -/
def digit? (c : Char) : Option Nat :=
  if '0' ≤ c ∧ c ≤ '9' then some (c.toNat - 48) else none

/-- Appends digits to `n` as long as the number stays within `limit`. -/
def accumulate (limit : Nat) (excess : Fault) (n : Nat) : List Char → Except Fault Nat
  | [] => .ok n
  | c :: cs =>
    match digit? c with
    | none => .error .digit
    | some d =>
      if 10 * n + d ≤ limit then accumulate limit excess (10 * n + d) cs else .error excess

/-- One digit or more, denoting a number up to `limit`. -/
def magnitude (limit : Nat) (excess : Fault) : List Char → Except Fault Nat
  | [] => .error .digit
  | cs => accumulate limit excess 0 cs

/-- A signed integer of 64 bits. -/
def read (cs : List Char) : Except Fault Int64 :=
  match cs with
  | [] => .error .empty
  | '-' :: ds => do return Int64.ofInt (-(← magnitude (1 <<< 63) .tooSmall ds))
  | '+' :: ds => do return Int64.ofInt (← magnitude ((1 <<< 63) - 1) .tooLarge ds)
  | ds => do return Int64.ofInt (← magnitude ((1 <<< 63) - 1) .tooLarge ds)

/-- An unsigned integer of 64 bits; a minus sign is not allowed. -/
def readIndex? (cs : List Char) : Option Nat :=
  let ds := match cs with
    | '+' :: ds => ds
    | ds => ds
  (magnitude ((1 <<< 64) - 1) .tooLarge ds).toOption

/-- The digits of an integer, with a minus sign if it is negative. -/
def text (n : Int64) : String := toString n.toInt

end TypedDoc.Numeral.Integer

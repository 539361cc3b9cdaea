import TypedDoc.Numeral.Decimal
import TypedDoc.Text.Blank
import TypedDoc.Value

/-!
# Decoding of text

The rules that read the text of one element. Blanks around a number or a timestamp are ignored,
and an error shows the text with them.
-/

namespace TypedDoc.Decode

open Numeral (Binary64 Decimal)

/-- The integer in the text of an element. -/
def integer (tag : String) : Option String → Except Error Int64
  | none => .error (.malformedValue tag "" .missingInteger)
  | some text =>
    (Numeral.Integer.read (Text.trimChars text.toList)).mapError fun fault =>
      .malformedValue tag text (.integer fault)

/-- The floating-point number in a text that is there. -/
def decimal (tag text : String) : Except Error Binary64 :=
  (Decimal.read (Text.trimChars text.toList)).mapError fun fault =>
    .malformedValue tag text (.number fault)

/-- The floating-point number in the text of an element. -/
def number (tag : String) : Option String → Except Error Binary64
  | none => .error (.malformedValue tag "" .missingNumber)
  | some text => decimal tag text

/-- Whether a finite number, rounded to an integer, lies between the ends of 64 bits as
floating-point numbers. The upper end becomes `2 ^ 63`, so an integer past it is let through. -/
def fits64 (x : Binary64) : Bool :=
  (Binary64.ofInt Int64.minValue.toInt).round ≤ x.round
    && x.round ≤ (Binary64.ofInt Int64.maxValue.toInt).round

/-- The moment in the text of an element, to the nearest millisecond. -/
def date (tag : String) : Option String → Except Error Timestamp
  | none => .error (.malformedValue tag "" .missingTimestamp)
  | some text => do
    let x ← decimal tag text
    if !x.isFinite then throw (.malformedValue tag text .timestampNotFinite)
    if !fits64 x then throw (.malformedValue tag text .timestampOutOfRange)
    match Timestamp.ofMillis? (Int64.ofIntClamp x.round).toInt with
    | some t => return t
    | none => throw (.malformedValue tag text .timestampOutOfRange)

/-- A number that does not fit 64 bits is no moment either. -/
theorem date_some (tag text : String) : date tag (some text) = (do
    let x ← decimal tag text
    if !x.isFinite then throw (.malformedValue tag text .timestampNotFinite)
    match Timestamp.ofMillis? x.round with
    | some t => return t
    | none => throw (.malformedValue tag text .timestampOutOfRange)) := by
  have hlow : (Binary64.ofInt Int64.minValue.toInt).round = -9223372036854775808 := by decide
  have hhigh : (Binary64.ofInt Int64.maxValue.toInt).round = 9223372036854775808 := by decide
  have hnone : ∀ x : Binary64, fits64 x = false → Timestamp.ofMillis? x.round = none := by
    intro x hx
    rw [fits64, hlow, hhigh, Bool.and_eq_false_iff, decide_eq_false_iff_not,
      decide_eq_false_iff_not] at hx
    exact dif_neg (by omega)
  rw [date]
  simp only [Timestamp.ofMillis?_ofIntClamp]
  refine congrArg (decimal tag text >>= ·) (funext fun x => ?_)
  cases hx : fits64 x with
  | true => rfl
  | false =>
    rw [hnone x hx]
    cases x.isFinite <;> rfl

/-- The payload in the text of an element; an element without text has no bytes. -/
def binary : Option String → Except Error Binary
  | none => .ok .empty
  | some text => Binary.read text

end TypedDoc.Decode

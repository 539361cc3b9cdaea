/-!
# Timestamps

Moments in whole milliseconds from the start of 1970, over 524286 years of the proleptic Gregorian
calendar. A moment is written as the date and the time of its day.

Date values are restricted to moments in UTC with the precision of a millisecond, which is that of
the data model. Moments between two milliseconds and moments within a leap second are left out:
decoding gives neither, and a value that a caller makes with one has no counterpart here.
-/

namespace TypedDoc

/-- A moment, in milliseconds from the start of 1970: dates have no finer part, and no second of a
day is a leap second. The range is that of the years from -262143 to 262142. -/
structure Timestamp where
  millis : Int
  earliest_le : -8334601228800000 ≤ millis
  le_latest : millis ≤ 8210266876799999
deriving DecidableEq

namespace Timestamp

/-- The moment that many milliseconds from the start of 1970, if it is in range. -/
def ofMillis? (n : Int) : Option Timestamp :=
  if h : -8334601228800000 ≤ n ∧ n ≤ 8210266876799999 then some ⟨n, h.1, h.2⟩ else none

/-- Taking the number in 64 bits, or else the end of their range next to it, makes no difference:
the moments lie well within. -/
theorem ofMillis?_ofIntClamp (n : Int) :
    ofMillis? (Int64.ofIntClamp n).toInt = ofMillis? n := by
  have hmin : Int64.minValue.toInt = -9223372036854775808 := by decide
  have hmax : Int64.maxValue.toInt = 9223372036854775807 := by decide
  unfold Int64.ofIntClamp
  split
  · split
    · rw [Int64.toInt_ofIntLE]
    · rw [ofMillis?, ofMillis?, dif_neg (by omega), dif_neg (by omega)]
  · rw [ofMillis?, ofMillis?, dif_neg (by omega), dif_neg (by omega)]

/-- A day of the calendar. -/
structure Date where
  year : Int
  month : Int
  day : Int
deriving DecidableEq, Repr

/-- The date of a day counted from the first of January 1970. Days are grouped into eras of 400
years, and a year is taken to begin in March, so that a leap day comes last. -/
def Date.ofDay (n : Int) : Date :=
  let shifted := n + 719468
  let era := shifted / 146097
  let dayOfEra := shifted % 146097
  let yearOfEra := (dayOfEra - dayOfEra / 1460 + dayOfEra / 36524 - dayOfEra / 146096) / 365
  let dayOfYear := dayOfEra - (365 * yearOfEra + yearOfEra / 4 - yearOfEra / 100)
  let fromMarch := (5 * dayOfYear + 2) / 153
  let month := if fromMarch < 10 then fromMarch + 3 else fromMarch - 9
  { year := yearOfEra + 400 * era + (if month ≤ 2 then 1 else 0)
    month := month
    day := dayOfYear - (153 * fromMarch + 2) / 5 + 1 }

/-- The day of a date, counted from the first of January 1970. -/
def Date.toDay (d : Date) : Int :=
  let year := d.year - (if d.month ≤ 2 then 1 else 0)
  let era := year / 400
  let yearOfEra := year % 400
  let fromMarch := if 2 < d.month then d.month - 3 else d.month + 9
  let dayOfYear := (153 * fromMarch + 2) / 5 + (d.day - 1)
  era * 146097 + (365 * yearOfEra + yearOfEra / 4 - yearOfEra / 100 + dayOfYear) - 719468

/-- The date of a moment. -/
def date (t : Timestamp) : Date := .ofDay (t.millis / 86400000)

/-- The milliseconds since the start of the day. -/
def timeOfDay (t : Timestamp) : Nat := (t.millis % 86400000).toNat

/-- At least `width` digits. -/
def padded (width n : Nat) : String :=
  let ds := Nat.toDigits 10 n
  String.ofList (List.replicate (width - ds.length) '0' ++ ds)

/-- Four digits for the years from 0 to 9999, and a sign before at least four digits for others. -/
def yearText (y : Int) : String :=
  if y < 0 then "-" ++ padded 4 y.natAbs
  else if y ≤ 9999 then padded 4 y.natAbs
  else "+" ++ padded 4 y.natAbs

/-- Year, month and day, then hours, minutes and seconds. -/
def toSeconds (t : Timestamp) : String :=
  let d := t.date
  let s := t.timeOfDay / 1000
  yearText d.year ++ "-" ++ padded 2 d.month.toNat ++ "-" ++ padded 2 d.day.toNat ++ "T" ++
    padded 2 (s / 3600) ++ ":" ++ padded 2 (s / 60 % 60) ++ ":" ++ padded 2 (s % 60)

/-- The moment with three digits after the second. -/
def text (t : Timestamp) : String := t.toSeconds ++ "." ++ padded 3 (t.timeOfDay % 1000)

/-- The moment, with a fraction only if the second is not a whole one. -/
def briefText (t : Timestamp) : String :=
  if t.timeOfDay % 1000 = 0 then t.toSeconds else t.text

end Timestamp

end TypedDoc

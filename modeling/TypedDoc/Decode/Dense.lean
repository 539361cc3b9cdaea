import TypedDoc.Numeral.Integer
import TypedDoc.Value

/-!
# Arrays by position

An array is built from values and the texts of their positions, in any order. A position without a
value holds null, and a position with several holds the last of them.
-/

namespace TypedDoc.Decode.Dense

/-- Puts a value at a position, with nulls before it as far as needed. -/
def place (items : Array Value) (i : Nat) (v : Value) : Array Value :=
  if h : i < items.size then items.set i v h
  else (items ++ Array.replicate (i - items.size) Value.null).push v

/-- Puts a value at the position that a text denotes, which lies below a limit. -/
def step (limit : Nat) (items : Array Value) (p : String × Value) :
    Except Error (Array Value) :=
  match Numeral.Integer.readIndex? p.1.toList with
  | none => .error (.malformedValue "array" p.1 .notAnIndex)
  | some i =>
    if i < limit then .ok (place items i p.2)
    else .error (.malformedValue "array" p.1 (.indexLimit limit))

/-- The array of some values with the texts of their positions. -/
def ofPairs (limit : Nat) (ps : List (String × Value)) : Except Error (List Value) :=
  (ps.foldlM (step limit) #[]).map (·.toList)

end TypedDoc.Decode.Dense

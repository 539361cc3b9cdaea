import TypedDoc.Numeral.Layout
import TypedDoc.Value

/-!
# The text of values

The ordered text form, which tells every kind of value apart: strings are quoted, numbers always
have a point or an exponent, and the other kinds carry their name. Documents list their pairs in
order.
-/

namespace TypedDoc

open Text (quoted)

/-- Numbers have a point from 0.0001 up to below `10 ^ 16` and an exponent elsewhere. -/
def Value.numberLayout : Numeral.Layout := ⟨-3, 16, false, .up⟩

/-- The pairs of a document, with the texts of their values. -/
def Document.textOfPairs (pairs : List (String × String)) : String :=
  "Document([" ++
    ", ".intercalate (pairs.map fun p => "(" ++ quoted p.1 ++ ", " ++ p.2 ++ ")") ++ "])"

namespace Value

mutual

/-- The text of a value. -/
def text : Value → String
  | null => "null"
  | boolean b => if b then "true" else "false"
  | integer n => Numeral.Integer.text n
  | number x => numberLayout.text x
  | string s => quoted s
  | binary b => "Binary(" ++ quoted b.base64 ++ ")"
  | array items => "[" ++ ", ".intercalate (itemTexts items) ++ "]"
  | document ⟨order, entries⟩ => Document.textOfPairs (Table.arrange (entryTexts entries) order)
  | date t => "DateTime(" ++ t.text ++ ")"
  | regex r => "Regex(" ++ quoted r.pattern ++ ", " ++ quoted r.options.letters ++ ")"
  | objectId o => "ObjectId(" ++ quoted o.hex ++ ")"
  | reference collection id => "DBRef(" ++ quoted collection ++ ", " ++ text id ++ ")"
  | code source => "Code(" ++ quoted source ++ ")"

/-- The texts of the items of an array. -/
def itemTexts : List Value → List String
  | [] => []
  | v :: vs => text v :: itemTexts vs

/-- The texts of the values of a table. -/
def entryTexts : List (String × Value) → List (String × String)
  | [] => []
  | (k, v) :: rest => (k, text v) :: entryTexts rest

end

end Value

/-- The text of a document. -/
def Document.text (d : Document) : String :=
  textOfPairs (Table.arrange (Value.entryTexts d.entries) d.order)

end TypedDoc

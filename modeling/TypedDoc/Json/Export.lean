import TypedDoc.Json
import TypedDoc.Plain

/-!
# Values as JSON

Documents become objects with their keys in order, and plain tables become objects with their keys
ascending. A kind of value that JSON does not have becomes an object whose keys start with a dollar
sign.
-/

namespace TypedDoc

open Numeral (Binary64)

/-- A floating-point number; those that are not finite are named. -/
def Json.ofNumber (x : Binary64) : Json :=
  if x.isFinite then .number x
  else
    let name := if x.isNaN then "NaN" else if x.isNegative then "-Infinity" else "Infinity"
    .object [("$numberDouble", .string name)]

/-- A payload as base64 text, with two digits for its subtype. -/
def Binary.toJson (b : Binary) : Json :=
  .object [("$binary", .object [("base64", .string b.base64),
    ("subType", .string (String.ofList (Text.Hex.encode [b.subtype])))])]

/-- A pattern and the letters of its options. -/
def Regex.toJson (r : Regex) : Json :=
  .object [("$regularExpression", .object [("pattern", .string r.pattern),
    ("options", .string r.options.letters)])]

namespace Value

mutual

/-- The JSON tree of a value. -/
def toJson : Value → Json
  | null => .null
  | boolean b => .boolean b
  | integer n => .integer n
  | number x => .ofNumber x
  | string s => .string s
  | binary b => b.toJson
  | array items => .array (itemsToJson items)
  | document ⟨order, entries⟩ => .object (Table.arrange (entriesToJson entries) order)
  | date t => .object [("$date", .string (t.text ++ "Z"))]
  | regex r => r.toJson
  | objectId o => .object [("$oid", .string o.hex)]
  | reference collection id => .object [("$ref", .string collection), ("$id", toJson id)]
  | code source => .object [("$code", .string source)]

/-- The JSON trees of the items of an array. -/
def itemsToJson : List Value → List Json
  | [] => []
  | v :: vs => toJson v :: itemsToJson vs

/-- The JSON trees of the values of a table. -/
def entriesToJson : List (String × Value) → List (String × Json)
  | [] => []
  | (k, v) :: rest => (k, toJson v) :: entriesToJson rest

end

end Value

/-- The object of a document. -/
def Document.toJson (d : Document) : Json :=
  .object (Table.arrange (Value.entriesToJson d.entries) d.order)

namespace Plain

mutual

/-- The JSON tree of a plain tree. -/
def toJson : Plain → Json
  | map entries => .object (Table.arrange (entriesToJson entries) (Table.sortedKeys entries))
  | list items => .array (itemsToJson items)
  | scalar v => v.toJson

/-- The JSON trees of the items of a list. -/
def itemsToJson : List Plain → List Json
  | [] => []
  | p :: ps => toJson p :: itemsToJson ps

/-- The JSON trees of the entries of a table. -/
def entriesToJson : List (String × Plain) → List (String × Json)
  | [] => []
  | (k, p) :: rest => (k, toJson p) :: entriesToJson rest

end

end Plain

end TypedDoc

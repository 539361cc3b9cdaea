import TypedDoc.Value.Text

/-!
# The detailed text of values

A text for debugging, which names the kind of every value and the parts of those that have several.
-/

namespace TypedDoc

open Text (quoted)

/-- Named parts in braces. -/
def Value.record (name : String) (parts : List (String × String)) : String :=
  name ++ " \x7b " ++ ", ".intercalate (parts.map fun p => p.1 ++ ": " ++ p.2) ++ " \x7d"

/-- Bytes as decimal numbers in brackets. -/
def Value.byteList (bytes : List UInt8) : String :=
  "[" ++ ", ".intercalate (bytes.map fun b => toString b.toNat) ++ "]"

namespace Value

mutual

/-- The detailed text of a value. -/
def detail : Value → String
  | null => "Null"
  | boolean b => "Bool(" ++ (if b then "true" else "false") ++ ")"
  | integer n => "Int(" ++ Numeral.Integer.text n ++ ")"
  | number x => "Float(" ++ numberLayout.text x ++ ")"
  | string s => "String(" ++ quoted s ++ ")"
  | binary b =>
    "Binary(" ++ record "Binary" [("bytes", byteList b.bytes),
      ("subtype", toString b.subtype.toNat)] ++ ")"
  | array items => "Array([" ++ ", ".intercalate (itemDetails items) ++ "])"
  | document ⟨order, entries⟩ =>
    "Document(" ++ Document.textOfPairs (Table.arrange (entryDetails entries) order) ++ ")"
  | date t => "DateTime(" ++ t.briefText ++ ")"
  | regex r =>
    "Regex(" ++ record "Regex" [("pattern", quoted r.pattern),
      ("flags", "RegexFlags(" ++ r.options.debug ++ ")")] ++ ")"
  | objectId o => "ObjectId(ObjectId(" ++ byteList o.bytes ++ "))"
  | reference collection id =>
    "DbRef(" ++ record "DbRef" [("collection", quoted collection), ("id", detail id)] ++ ")"
  | code source => "Code(Code(" ++ quoted source ++ "))"

/-- The detailed texts of the items of an array. -/
def itemDetails : List Value → List String
  | [] => []
  | v :: vs => detail v :: itemDetails vs

/-- The detailed texts of the values of a table. -/
def entryDetails : List (String × Value) → List (String × String)
  | [] => []
  | (k, v) :: rest => (k, detail v) :: entryDetails rest

end

end Value

/-- The detailed text of a document. -/
def Document.detail (d : Document) : String :=
  textOfPairs (Table.arrange (Value.entryDetails d.entries) d.order)

end TypedDoc

/-!
# Rules

The tags that decoding knows, each with the rule for the content of its elements. Tags are told
apart by case, and three of them share a rule.
-/

namespace TypedDoc

/-- How the content of an element becomes a value. -/
inductive Rule where
  /-- The text. -/
  | text
  /-- Base64 text. -/
  | binary
  /-- True for the text `true`, false for any other. -/
  | boolean
  /-- The text, as a piece of program text. -/
  | code
  /-- Milliseconds from the start of 1970, perhaps with a fraction. -/
  | date
  | integer
  | number
  /-- Null, whatever the content. -/
  | null
  /-- Hexadecimal digits. -/
  | objectId
  /-- Children by their names. -/
  | document
  /-- Children by their positions. -/
  | array
  /-- Two children, a collection and an identifier. -/
  | reference
  /-- Two children, a pattern and its options. -/
  | regex
  /-- Letters of options. -/
  | options
deriving DecidableEq, Repr

namespace Rule

/-- Every tag and its rule. -/
def table : List (String × Rule) :=
  [("string", text), ("ns", text), ("pattern", text), ("binary", binary), ("boolean", boolean),
   ("code", code), ("date", date), ("int", integer), ("number", number), ("null", null),
   ("oid", objectId), ("doc", document), ("array", array), ("ref", reference), ("regex", regex),
   ("options", options)]

/-- The rule of a tag. -/
def ofTag? (tag : String) : Option Rule := table.lookup tag

end Rule

end TypedDoc

/-!
# Kinds of values
-/

namespace TypedDoc

/-- The kinds of values, kept apart even where two values print alike. -/
inductive Kind where
  | null
  | boolean
  | integer
  | number
  | string
  | binary
  | array
  | document
  | date
  | regex
  | objectId
  | reference
  | code
deriving DecidableEq, Repr

/-- The name of a kind: the tag of the elements that hold such values. -/
def Kind.name : Kind → String
  | null => "null"
  | boolean => "boolean"
  | integer => "int"
  | number => "number"
  | string => "string"
  | binary => "binary"
  | array => "array"
  | document => "doc"
  | date => "date"
  | regex => "regex"
  | objectId => "oid"
  | reference => "ref"
  | code => "code"

end TypedDoc

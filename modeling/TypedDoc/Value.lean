import TypedDoc.Binary
import TypedDoc.Numeral.Binary64
import TypedDoc.ObjectId
import TypedDoc.OrderedMap
import TypedDoc.RegexOptions
import TypedDoc.Timestamp

/-!
# Values

What a document holds: scalars of several kinds, arrays of values, documents, and references
whose identifier is again a value. Integers and floating-point numbers are different kinds.
-/

namespace TypedDoc

open Numeral (Binary64)

/-- A pattern with its options. -/
structure Regex where
  pattern : String
  options : RegexOptions
deriving DecidableEq

/-- A value of a document. -/
inductive Value where
  | null
  | boolean (b : Bool)
  | integer (n : Int64)
  | number (x : Binary64)
  | string (s : String)
  | binary (b : Binary)
  | array (items : List Value)
  | document (fields : OrderedMap Value)
  | date (t : Timestamp)
  | regex (r : Regex)
  | objectId (o : ObjectId)
  /-- A reference to a document of another collection. -/
  | reference (collection : String) (id : Value)
  /-- A piece of program text. -/
  | code (source : String)
deriving Inhabited

/-- A map from keys to values, in the order in which the keys came. -/
abbrev Document := OrderedMap Value

namespace Value

def kind : Value → Kind
  | null => .null
  | boolean _ => .boolean
  | integer _ => .integer
  | number _ => .number
  | string _ => .string
  | binary _ => .binary
  | array _ => .array
  | document _ => .document
  | date _ => .date
  | regex _ => .regex
  | objectId _ => .objectId
  | reference .. => .reference
  | code _ => .code

def isNull : Value → Bool
  | null => true
  | _ => false

def string? : Value → Option String
  | string s => some s
  | _ => none

def integer? : Value → Option Int64
  | integer n => some n
  | _ => none

/-- A number as it is, and an integer as the nearest number. -/
def number? : Value → Option Binary64
  | number x => some x
  | integer n => some (.ofInt n.toInt)
  | _ => none

def boolean? : Value → Option Bool
  | boolean b => some b
  | _ => none

def array? : Value → Option (List Value)
  | array items => some items
  | _ => none

def document? : Value → Option Document
  | document fields => some fields
  | _ => none

/-- The string, or null if there is none. -/
def ofOption : Option String → Value
  | some s => string s
  | none => null

end Value

end TypedDoc

import TypedDoc.Kind
import TypedDoc.Markup.Fault
import TypedDoc.Numeral.Decimal
import TypedDoc.Text.Base64
import TypedDoc.Text.Quoted

/-!
# Errors

Every way in which an operation on documents, the decoding of elements or the reading of markup
fails, as a cause with the data that its message shows. The wording is in one place.
-/

namespace TypedDoc

/-- A call that a document cannot carry out. -/
inductive ArgumentFault where
  /-- More than one default for a removal. -/
  | tooManyDefaults (given : Nat)
  /-- A mapping that lists a key without having a value for it. -/
  | danglingKey (key : String)
  /-- A value of a kind that holds no pairs. -/
  | notASource (kind : Kind)
  /-- A pair whose key is no string. -/
  | keyNotAString (kind : Kind)
  /-- An item that is no array of two values. -/
  | notAPair (kind : Kind)
deriving DecidableEq

/-- Why the text of an element, or the name of an array's item, cannot be read. -/
inductive TextFault where
  | missingInteger
  | missingNumber
  | missingTimestamp
  | integer (fault : Numeral.Integer.Fault)
  | number (fault : Numeral.Decimal.Fault)
  | timestampNotFinite
  | timestampOutOfRange
  | base64 (fault : Text.Base64.Fault)
  | hexLength (bytes : Nat)
  | hexDigit
  | notAnIndex
  | indexLimit (limit : Nat)
deriving DecidableEq

/-- How an element differs from the shape that its tag asks for. -/
inductive ShapeFault where
  /-- A root with fewer than two children. -/
  | noDocument (root : String) (children : Nat)
  | missingName (child parent : String)
  | childCount (tag : String) (children : Nat)
  | collectionNotAString (kind : Kind)
  | patternNotAString (kind : Kind)
  | notOptions (tag : String)
deriving DecidableEq

/-- Why an operation failed. -/
inductive Error where
  | keyNotFound (key : String)
  | emptyContainer
  | argument (fault : ArgumentFault)
  | unsupportedTag (tag : String)
  | malformedValue (tag text : String) (fault : TextFault)
  | malformedInput (fault : ShapeFault)
  | depthLimitExceeded (limit : Nat)
  /-- The text is no well-formed markup. -/
  | markup (fault : Markup.Fault)
deriving DecidableEq

open Text (quoted)

/-- The text of an argument fault. -/
def ArgumentFault.message : ArgumentFault → String
  | tooManyDefaults n => s!"pop expected at most 2 arguments, got {1 + n}"
  | danglingKey key => "mapping lists key " ++ quoted key ++ " but has no value for it"
  | notASource kind => "cannot update a document from a value of type " ++ kind.name
  | keyNotAString kind => "pair key must be a string, got " ++ kind.name
  | notAPair kind => "expected a [key, value] pair, got " ++ kind.name

/-- The text of a text fault. -/
def TextFault.message : TextFault → String
  | missingInteger => "missing integer text"
  | missingNumber => "missing number text"
  | missingTimestamp => "missing timestamp"
  | integer fault => fault.message
  | number fault => fault.message
  | timestampNotFinite => "timestamp is not finite"
  | timestampOutOfRange => "timestamp out of range"
  | base64 fault => fault.message
  | hexLength n => s!"expected 24 hex digits, got {n}"
  | hexDigit => "invalid hex digit"
  | notAnIndex => "index is not a base-10 integer"
  | indexLimit n => s!"index exceeds the limit of {n}"

/-- The text of a shape fault. -/
def ShapeFault.message : ShapeFault → String
  | noDocument root n => s!"<{root}> has {n} child element(s); the document root is the second"
  | missingName child parent => s!"<{child}> inside <{parent}> has no name attribute"
  | childCount tag n => s!"<{tag}> needs exactly 2 child elements, got {n}"
  | collectionNotAString kind =>
    "<ref> collection must decode to a string, got " ++ kind.name
  | patternNotAString kind => "<regex> pattern must decode to a string, got " ++ kind.name
  | notOptions tag => s!"<regex> second child must be <options>, got <{tag}>"

/-- The text of an error. -/
def Error.message : Error → String
  | keyNotFound key => "key not found: " ++ quoted key
  | emptyContainer => "container is empty"
  | argument fault => "argument error: " ++ fault.message
  | unsupportedTag tag => "cannot parse tag: " ++ tag
  | malformedValue tag text fault =>
    "malformed <" ++ tag ++ "> value " ++ quoted text ++ ": " ++ fault.message
  | malformedInput fault => "malformed input: " ++ fault.message
  | depthLimitExceeded limit => s!"nesting depth exceeds limit of {limit}"
  | markup fault => "XML parse error: " ++ fault.message

end TypedDoc

import TypedDoc.Decode.Dense
import TypedDoc.Decode.Rule
import TypedDoc.Decode.Scalar
import TypedDoc.Field

/-!
# Decoding

The value of an element by the rule of its tag. The first child that breaks a rule ends the decoding
with an error, and nothing is kept of the children before it. Elements that hold others count
towards a limit on nesting, as soon as they have a child to go down to.
-/

namespace TypedDoc

/-- The limits of decoding. -/
structure Limits where
  /-- How many levels below the start an element may lie. -/
  maxDepth : Nat := 100
  /-- How long an array may become. -/
  maxArrayLength : Nat := 1 <<< 24
deriving DecidableEq, Repr

namespace Decode

/-- One level further down. -/
def descend (limits : Limits) (depth : Nat) : Except Error Nat :=
  if depth + 1 ≤ limits.maxDepth then .ok (depth + 1)
  else .error (.depthLimitExceeded limits.maxDepth)

/-- The depth of children: one level further down, if there are any. -/
def enter (limits : Limits) (depth : Nat) (children : List Field) : Except Error Nat :=
  if children.isEmpty then .ok depth else descend limits depth

/-- The string that the first child of a reference or a regular expression stands for. -/
def asString (fault : Kind → ShapeFault) : Value → Except Error String
  | .string s => .ok s
  | other => .error (.malformedInput (fault other.kind))

/-- The options in an element, which has the tag for them. -/
def options (f : Field) : Except Error RegexOptions :=
  match Rule.ofTag? f.tag with
  | none => .error (.unsupportedTag f.tag)
  | some .options => .ok (.ofLetters (f.text.getD ""))
  | some _ => .error (.malformedInput (.notOptions f.tag))

mutual

/-- The value of an element at some depth. -/
def value (limits : Limits) (depth : Nat) (f : Field) : Except Error Value :=
  match f with
  | .mk tag _ text children =>
    match Rule.ofTag? tag with
    | none => .error (.unsupportedTag tag)
    | some .text => .ok (.string (text.getD ""))
    | some .binary => return .binary (← binary text)
    | some .boolean => .ok (.boolean (text == some "true"))
    | some .code => .ok (.code (text.getD ""))
    | some .date => return .date (← date tag text)
    | some .integer => return .integer (← integer tag text)
    | some .number => return .number (← number tag text)
    | some .null => .ok .null
    | some .objectId => return .objectId (← ObjectId.read (text.getD ""))
    | some .document => do
      return .document (← members limits (← enter limits depth children) tag .empty children)
    | some .array => do
      let d ← members limits (← enter limits depth children) tag .empty children
      return .array (← Dense.ofPairs limits.maxArrayLength d.items)
    | some .reference =>
      match children with
      | [collection, id] => do
        let next ← descend limits depth
        let collection ← asString .collectionNotAString (← value limits next collection)
        return .reference collection (← value limits next id)
      | _ => .error (.malformedInput (.childCount tag children.length))
    | some .regex =>
      match children with
      | [pattern, letters] => do
        let next ← descend limits depth
        let pattern ← asString .patternNotAString (← value limits next pattern)
        return .regex ⟨pattern, ← options letters⟩
      | _ => .error (.malformedInput (.childCount tag children.length))
    | some .options =>
      .ok (.integer (Int64.ofInt (RegexOptions.ofLetters (text.getD "")).bits.toNat))
termination_by structural f

/-- Writes children to a document under their names. -/
def members (limits : Limits) (depth : Nat) (parent : String) (d : Document)
    (fs : List Field) : Except Error Document :=
  match fs with
  | [] => .ok d
  | f :: rest =>
    match f.name with
    | none => .error (.malformedInput (.missingName f.tag parent))
    | some name => do
      let v ← value limits depth f
      members limits depth parent (d.set name v) rest
termination_by structural fs

end

/-- The document of the children of an element at some depth. -/
def document (limits : Limits) (depth : Nat) (tag : String) (children : List Field) :
    Except Error Document := do
  members limits (← enter limits depth children) tag .empty children

/-- The value of an element. -/
def element (limits : Limits) (f : Field) : Except Error Value := value limits 0 f

/-- The document of an element's children, whatever the tag of the element. -/
def children (limits : Limits) (f : Field) : Except Error Document :=
  document limits 0 f.tag f.children

/-- The document of a whole tree: its root's first child is set aside, and the second one holds
the document. -/
def tree (limits : Limits) (root : Field) : Except Error Document :=
  match root.children with
  | _ :: f :: _ => children limits f
  | short => .error (.malformedInput (.noDocument root.tag short.length))

end Decode

end TypedDoc

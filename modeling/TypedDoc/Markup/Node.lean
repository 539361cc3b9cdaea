import TypedDoc.Element

/-!
# Elements in markup

Elements as they were read: attributes with the namespace that their prefix stands for, and content
in which text, comments and processing instructions keep their places.
-/

namespace TypedDoc.Markup

/-- An attribute with its namespace; an attribute without a prefix has none. -/
structure Attribute where
  namespaceName : Option String
  localName : String
  value : String
deriving DecidableEq

mutual

/-- A piece of the content of an element. -/
inductive Node where
  | element (e : Branch)
  | text (s : String)
  | comment
  | instruction

/-- An element, with its name but without the prefix of its name. -/
inductive Branch where
  | mk (tag : String) (attributes : List Attribute) (content : List Node)

end

namespace Branch

def tag : Branch → String
  | mk tag .. => tag

def attributes : Branch → List Attribute
  | mk _ attributes _ => attributes

def content : Branch → List Node
  | mk _ _ content => content

end Branch

/-- The value of the attribute with a name and no namespace. -/
def plainAttribute? (attributes : List Attribute) (name : String) : Option String :=
  (attributes.find? fun a => a.namespaceName.isNone && a.localName == name).map (·.value)

/-- The text that content begins with. -/
def leadingText? : List Node → Option String
  | .text s :: _ => some s
  | _ => none

mutual

/-- The element as decoding sees it. -/
def Branch.toField (b : Branch) : Field :=
  match b with
  | .mk tag attributes content =>
    .mk tag (plainAttribute? attributes "name") (leadingText? content) (Node.toFields content)
termination_by structural b

/-- A piece of content as decoding sees it; only elements are seen. -/
def Node.toField? (n : Node) : Option Field :=
  match n with
  | .element b => some b.toField
  | .text _ => none
  | .comment => none
  | .instruction => none
termination_by structural n

/-- The elements of content as decoding sees them. -/
def Node.toFields (ns : List Node) : List Field :=
  match ns with
  | [] => []
  | n :: ns => (Node.toField? n).toList ++ Node.toFields ns
termination_by structural ns

end

mutual

/-- The element with the local names of its attributes. -/
def Branch.toElement (b : Branch) : Element :=
  match b with
  | .mk tag attributes content =>
    .mk tag (attributes.map fun a => (a.localName, a.value)) (leadingText? content)
      (Node.toElements content)
termination_by structural b

/-- The element that a piece of content is. -/
def Node.toElement? (n : Node) : Option Element :=
  match n with
  | .element b => some b.toElement
  | .text _ => none
  | .comment => none
  | .instruction => none
termination_by structural n

/-- The elements of content. -/
def Node.toElements (ns : List Node) : List Element :=
  match ns with
  | [] => []
  | n :: ns => (Node.toElement? n).toList ++ Node.toElements ns
termination_by structural ns

end

end TypedDoc.Markup

import TypedDoc.Markup.Node
import TypedDoc.Markup.Reference
import TypedDoc.Markup.Tag

/-!
# Namespaces

A tag may bind prefixes to namespace names for its element and all below it. A prefix other than
`xml` has to be bound where it is used, and an element has no two attributes with the same
namespace and local name.
-/

namespace TypedDoc.Markup

/-- Prefixes and the names that they stand for, the innermost first. -/
abbrev Scope := List (String × String)

namespace Scope

/-- The name that the prefix `xml` stands for. -/
def xmlName : String := "http:" ++ "//www.w3.org/XML/1998/namespace"

/-- The name that the prefix `xmlns` stands for. -/
def xmlnsName : String := "http:" ++ "//www.w3.org/2000/xmlns/"

/-- Binds a prefix beside the others of the same tag. The two names above are not bound to other
prefixes, and `xml` stands for its own name only. -/
def bind (own : Scope) (qualifier uri : String) : Except Fault Scope :=
  if uri == xmlnsName || (uri == xmlName) != (qualifier == "xml") then
    .error (.namespaceName uri)
  else if qualifier = "xml" then .ok own
  else if (own.lookup qualifier).isSome then .error (.duplicateNamespace qualifier)
  else .ok ((qualifier, uri) :: own)

/-- The names and values of a tag's attributes, with its bindings apart. -/
def separate : List RawAttribute → Except Fault (Scope × List (QName × String))
  | [] => .ok ([], [])
  | a :: rest => do
    let value := String.ofList (← valueOf a.value)
    let (own, others) ← separate rest
    if a.name.qualifier = "xmlns" then return (← bind own a.name.localName value, others)
    else if a.name.localName = "xmlns" then
      if value == xmlName || value == xmlnsName then throw (.namespaceName value)
      return (own, others)
    else return (own, (a.name, value) :: others)

/-- The namespace of an attribute. -/
def ofAttribute (scope : Scope) (qualifier : String) : Except Fault (Option String) :=
  if qualifier = "xml" then .ok (some xmlName)
  else if qualifier.isEmpty then .ok none
  else
    match scope.lookup qualifier with
    | some uri => .ok (some uri)
    | none => .error (.unknownQualifier qualifier)

/-- Whether the prefix of an element's name is bound. -/
def hasElement (scope : Scope) (qualifier : String) : Bool :=
  qualifier.isEmpty || (scope.lookup qualifier).isSome

/-- Attributes with their namespaces, after some others in reverse. -/
def resolve (scope : Scope) (done : List Attribute) :
    List (QName × String) → Except Fault (List Attribute)
  | [] => .ok done.reverse
  | (name, value) :: rest => do
    let space ← scope.ofAttribute name.qualifier
    if done.any fun a => a.namespaceName == space && a.localName == name.localName then
      throw (.duplicateAttribute name.text)
    resolve scope (⟨space, name.localName, value⟩ :: done) rest

end Scope

end TypedDoc.Markup

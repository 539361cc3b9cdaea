import TypedDoc.Decode
import TypedDoc.Markup.Depth
import TypedDoc.Markup.Read

/-!
# Reading documents

From text to documents and element trees. Nesting is measured on the text first, so a text that
nests too deep is refused before anything is built from it.
-/

namespace TypedDoc

/-- The root element of a text, whatever its depth. -/
def Markup.root (text : String) : Except Error Markup.Branch :=
  (Markup.read text).mapError .markup

/-- The document in a text: the second child of its root. -/
def Document.read (limits : Limits) (text : String) : Except Error Document := do
  Markup.Depth.check limits.maxDepth text
  Decode.tree limits (← Markup.root text).toField

/-- The element tree of a text that nests no deeper than the default limits allow. -/
def Element.read (text : String) : Except Error Element := do
  Markup.Depth.check ({} : Limits).maxDepth text
  return (← Markup.root text).toElement

/-- The document in an element tree, under the default limits. -/
def Document.ofElement (root : Element) : Except Error Document := Decode.tree {} root.toField

end TypedDoc

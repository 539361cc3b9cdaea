/-!
# Fields

What decoding looks at in an element: its tag, the name under which its parent keeps it, its text
and its child elements. An element without text is told apart from one with empty text.
-/

namespace TypedDoc

/-- An element as decoding sees it. -/
inductive Field where
  | mk (tag : String) (name text : Option String) (children : List Field)
deriving Inhabited

namespace Field

def tag : Field → String
  | mk tag .. => tag

def name : Field → Option String
  | mk _ name .. => name

def text : Field → Option String
  | mk _ _ text _ => text

def children : Field → List Field
  | mk _ _ _ children => children

end Field

end TypedDoc

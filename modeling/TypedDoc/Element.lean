import TypedDoc.Field

/-!
# Elements

Element trees built by hand or copied from markup: a tag, attributes by their local names, text
and child elements.
-/

namespace TypedDoc

/-- An element with everything below it. -/
inductive Element where
  | mk (tag : String) (attributes : List (String × String)) (text : Option String)
    (children : List Element)
deriving Inhabited

namespace Element

def tag : Element → String
  | mk tag .. => tag

def attributes : Element → List (String × String)
  | mk _ attributes .. => attributes

def text : Element → Option String
  | mk _ _ text _ => text

def children : Element → List Element
  | mk _ _ _ children => children

/-- The element with nothing in it. -/
def bare (tag : String) : Element := mk tag [] none []

/-- Gives an attribute a value, in place of the one that it had. -/
def setAttribute (attributes : List (String × String)) (key value : String) :
    List (String × String) :=
  match attributes with
  | [] => [(key, value)]
  | (k, v) :: rest =>
    if k = key then (k, value) :: rest else (k, v) :: setAttribute rest key value

def withAttribute (e : Element) (key value : String) : Element :=
  mk e.tag (setAttribute e.attributes key value) e.text e.children

/-- The element that a parent keeps under a name. -/
def named (tag name : String) : Element := (bare tag).withAttribute "name" name

def withText (e : Element) (text : String) : Element :=
  mk e.tag e.attributes (some text) e.children

def withChildren (e : Element) (children : List Element) : Element :=
  mk e.tag e.attributes e.text (e.children ++ children)

/-- The value of the first attribute with that name. -/
def attribute? (e : Element) (name : String) : Option String := e.attributes.lookup name

mutual

/-- The element as decoding sees it. -/
def toField : Element → Field
  | mk tag attributes text children =>
    .mk tag (attributes.lookup "name") text (toFields children)

/-- Elements as decoding sees them. -/
def toFields : List Element → List Field
  | [] => []
  | e :: es => toField e :: toFields es

end

end Element

end TypedDoc

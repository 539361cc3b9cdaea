import TypedDoc.Markup.Lexeme
import TypedDoc.Markup.Namespace

/-!
# Trees from lexemes

The lexemes of a text are taken one after another. Elements that are still open are kept innermost
first, each with the content that it has so far. A text is well-formed if its one element is closed
at the end.
-/

namespace TypedDoc.Markup

/-- An element that is still open, with its content in reverse. -/
structure Frame where
  name : QName
  attributes : List Attribute
  scope : Scope
  content : List Node

/-- How far a text has been read. -/
inductive Progress where
  | before
  | within (top : Frame) (outer : List Frame)
  | after (root : Branch)

/-- Adds text to content in reverse; text right after text is one text with it. -/
def addText (cs : List Char) : List Node → List Node
  | .text s :: rest => .text (s ++ String.ofList cs) :: rest
  | content => .text (String.ofList cs) :: content

/-- The element of a frame. -/
def Frame.close (f : Frame) : Branch := .mk f.name.localName f.attributes f.content.reverse

/-- A frame with one more piece of content. -/
def Frame.push (f : Frame) (n : Node) : Frame := { f with content := n :: f.content }

namespace Progress

/-- An element that has been closed goes into the one around it. -/
def closeTop (top : Frame) : List Frame → Progress
  | [] => .after top.close
  | f :: outer => .within (f.push (.element top.close)) outer

/-- The frame of a start tag below some bindings. -/
def frame (outer : Scope) (tag : Tag) : Except Fault Frame := do
  let (own, attributes) ← Scope.separate tag.attributes
  let scope : Scope := own ++ outer
  if tag.name.qualifier = "xmlns" || !scope.hasElement tag.name.qualifier then
    throw (.unknownQualifier tag.name.qualifier)
  return ⟨tag.name, ← scope.resolve [] attributes, scope, []⟩

/-- Opens an element. -/
def start (p : Progress) (tag : Tag) : Except Fault Progress :=
  let enter (outer : List Frame) (f : Frame) : Progress :=
    if tag.isEmpty then closeTop f outer else .within f outer
  match p with
  | .before => (frame [] tag).map (enter [])
  | .within top outer => (frame top.scope tag).map (enter (top :: outer))
  | .after _ => .error .secondRoot

/-- Closes the innermost element, which has the name of the end tag. -/
def finish (p : Progress) (body : List Char) : Except Fault Progress := do
  let (name, rest) ← QName.read body
  if !rest.all isSpace then throw .invalidTag
  match p with
  | .within top outer =>
    if top.name = name then return closeTop top outer
    else throw (.mismatch top.name.text name.text)
  | _ => throw .unopened

/-- Adds a piece of content that is no text; outside the root it has no place to go. -/
def note (p : Progress) (n : Node) : Progress :=
  match p with
  | .within top outer => .within (top.push n) outer
  | p => p

/-- Whether three characters end a section somewhere in a text. -/
def hasSectionEnd : List Char → Bool
  | ']' :: ']' :: '>' :: _ => true
  | _ :: cs => hasSectionEnd cs
  | [] => false

/-- Whether a comment has two hyphens in a row, its closing ones counted. -/
def hasHyphens : List Char → Bool
  | ['-'] => true
  | '-' :: '-' :: _ => true
  | _ :: cs => hasHyphens cs
  | [] => false

/-- Whether an instruction starts with the name of its target, and does not look like a
declaration. -/
def isInstruction (body : List Char) : Bool :=
  body.head?.any isNameStart && !(['x', 'm', 'l', ' '].isPrefixOf body)

/-- Takes one lexeme. -/
def step (p : Progress) : Lexeme → Except Fault Progress
  | .text cs =>
    match p with
    | .within top outer => do
      if hasSectionEnd cs then throw .sectionEndInText
      return .within { top with content := addText (← textOf cs) top.content } outer
    | p => if cs.all isSpace then .ok p else .error .textOutsideRoot
  | .verbatim body =>
    match p with
    | .within top outer =>
      .ok (.within { top with content := addText (sectionOf body) top.content } outer)
    | _ => .error .textOutsideRoot
  | .comment body => if hasHyphens body then .error .hyphensInComment else .ok (p.note .comment)
  | .instruction body =>
    if isInstruction body then .ok (p.note .instruction) else .error .invalidInstruction
  | .endTag body => p.finish body
  | .startTag body => do p.start (← Tag.read body)

end Progress

/-- The root element of some lexemes. -/
def Branch.ofLexemes (ls : List Lexeme) : Except Fault Branch := do
  match ← ls.foldlM Progress.step .before with
  | .after root => return root
  | .before => throw .noRoot
  | .within .. => throw .unclosed

end TypedDoc.Markup

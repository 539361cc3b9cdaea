import TypedDoc.Markup.Tree

/-!
# Reading markup

A text is one element, with comments, processing instructions and blanks around it. It may begin
with a byte order mark and after that with a declaration, which has a version and perhaps an
encoding and a statement that the text stands alone. Document types are not allowed.
-/

namespace TypedDoc.Markup

namespace Declaration

/-- What follows some characters, if a text starts with them. -/
def after (start : String) (cs : List Char) : Option (List Char) :=
  if start.toList.isPrefixOf cs then some (cs.drop start.length) else none

/-- What follows an attribute of a declaration and the blanks after it. Blanks are only missing
where the declaration ends. -/
def part (name : String) (cs : List Char) : Except Fault (List Char) :=
  match after name cs, RawAttribute.read cs with
  | some _, .ok (_, rest) =>
    if rest.head?.all isSpace || (after "?>" rest).isSome then .ok (rest.dropWhile isSpace)
    else .error .misplacedDeclaration
  | _, _ => .error .misplacedDeclaration

/-- What follows an attribute that may be missing. -/
def optional (name : String) (cs : List Char) : Except Fault (List Char) :=
  if (after name cs).isSome then part name cs else .ok cs

/-- What follows a declaration, if a text starts with one. -/
def skip (cs : List Char) : Except Fault (List Char) :=
  match after "<?xml " cs with
  | none => .ok cs
  | some cs => do
    let cs ← part "version" (cs.dropWhile isSpace)
    let cs ← optional "encoding" cs
    let cs ← optional "standalone" cs
    match after "?>" cs with
    | some cs => return cs
    | none => throw .misplacedDeclaration

end Declaration

/-- The characters of a text without a byte order mark. -/
def unmarked (text : String) : List Char :=
  match text.toList with
  | '\ufeff' :: cs => cs
  | cs => cs

/-- The root element of a text. -/
def read (text : String) : Except Fault Branch := do
  let cs := unmarked text
  if !cs.all isAllowed then throw .invalidCharacter
  Branch.ofLexemes (← Lexeme.split [] (← Declaration.skip cs))

end TypedDoc.Markup

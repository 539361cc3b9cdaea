import TypedDoc.Markup.Fault

/-!
# Names in markup

The characters that markup allows, those of names, and names with an optional qualifier before a
colon.
-/

namespace TypedDoc.Markup

/-- The characters that may stand in markup, by themselves or by reference. -/
def isAllowed (c : Char) : Bool :=
  let n := c.toNat
  if n < 0x20 then n == 0x09 || n == 0x0a || n == 0x0d else n != 0xfffe && n != 0xffff

/-- The blanks of markup. -/
def isSpace (c : Char) : Bool := c == ' ' || c == '\t' || c == '\n' || c == '\r'

/-- The characters that a name may start with. -/
def isNameStart (c : Char) : Bool :=
  let n := c.toNat
  c.isAlpha || c == ':' || c == '_' || (0xc0 ≤ n && n ≤ 0xd6) || (0xd8 ≤ n && n ≤ 0xf6) ||
    (0xf8 ≤ n && n ≤ 0x2ff) || (0x370 ≤ n && n ≤ 0x37d) || (0x37f ≤ n && n ≤ 0x1fff) ||
    n == 0x200c || n == 0x200d || (0x2070 ≤ n && n ≤ 0x218f) || (0x2c00 ≤ n && n ≤ 0x2fef) ||
    (0x3001 ≤ n && n ≤ 0xd7ff) || (0xf900 ≤ n && n ≤ 0xfdcf) || (0xfdf0 ≤ n && n ≤ 0xfffd) ||
    (0x10000 ≤ n && n ≤ 0xeffff)

/-- The characters of names. -/
def isNameChar (c : Char) : Bool :=
  let n := c.toNat
  isNameStart c || c.isDigit || c == '-' || c == '.' || n == 0xb7 || (0x300 ≤ n && n ≤ 0x36f) ||
    n == 0x203f || n == 0x2040

/-- A name, with the text before its colon. A name without a colon has an empty qualifier. -/
structure QName where
  qualifier : String
  localName : String
deriving DecidableEq

namespace QName

/-- The name with its qualifier. -/
def text (q : QName) : String :=
  if q.qualifier.isEmpty then q.localName else q.qualifier ++ ":" ++ q.localName

/-- The parts of a name around its colon, of which there is at most one. -/
def ofChars? (cs : List Char) : Option QName :=
  let qualifier := cs.takeWhile (· != ':')
  let (qualifier, localName) := match cs.dropWhile (· != ':') with
    | _ :: localName => (qualifier, localName)
    | [] => ([], cs)
  let starts (part : List Char) : Bool := part.head?.all isNameStart
  if localName.isEmpty || localName.contains ':' || !starts qualifier || !starts localName then none
  else some ⟨String.ofList qualifier, String.ofList localName⟩

/-- The name at the start of a text, and what follows it. -/
def read (cs : List Char) : Except Fault (QName × List Char) :=
  match ofChars? (cs.takeWhile isNameChar) with
  | some q => .ok (q, cs.dropWhile isNameChar)
  | none => .error .invalidName

end QName

end TypedDoc.Markup

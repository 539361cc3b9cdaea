/-!
# Faults of markup
-/

namespace TypedDoc.Markup

/-- Why a text is no well-formed markup. -/
inductive Fault where
  | invalidCharacter
  | unclosed
  | misplacedDeclaration
  | documentType
  | invalidName
  | hyphensInComment
  | invalidInstruction
  | invalidAttribute
  | invalidTag
  | invalidReference
  | sectionEndInText
  | textOutsideRoot
  | secondRoot
  | noRoot
  | unopened
  | mismatch (opened closed : String)
  | unknownQualifier (qualifier : String)
  | namespaceName (uri : String)
  | duplicateNamespace (qualifier : String)
  | duplicateAttribute (name : String)
deriving DecidableEq

/-- The text of a fault. -/
def Fault.message : Fault → String
  | invalidCharacter => "a character that markup does not allow"
  | unclosed => "markup without its end"
  | misplacedDeclaration => "a malformed or misplaced declaration"
  | documentType => "a document type is not allowed"
  | invalidName => "a malformed name"
  | hyphensInComment => "two hyphens within a comment"
  | invalidInstruction => "a malformed processing instruction"
  | invalidAttribute => "a malformed attribute"
  | invalidTag => "a malformed tag"
  | invalidReference => "a malformed or unknown reference"
  | sectionEndInText => "the end of a section within text"
  | textOutsideRoot => "text outside the root element"
  | secondRoot => "a second root element"
  | noRoot => "no root element"
  | unopened => "an end tag without its start tag"
  | mismatch opened closed => "<" ++ opened ++ "> is closed by </" ++ closed ++ ">"
  | unknownQualifier qualifier => "unknown namespace prefix " ++ qualifier
  | namespaceName uri => "a namespace name that cannot be bound so: " ++ uri
  | duplicateNamespace qualifier => "a namespace prefix bound twice: " ++ qualifier
  | duplicateAttribute name => "an attribute given twice: " ++ name

end TypedDoc.Markup

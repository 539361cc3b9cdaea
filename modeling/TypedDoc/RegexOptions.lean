/-!
# Options of regular expressions

Six options, each with a letter and a bit of a mask. A mask may have other bits as well; they
have no letter.
-/

namespace TypedDoc

/-- An option of a regular expression. -/
inductive RegexOption where
  | ignoreCase
  | locale
  | multiline
  | dotAll
  | unicode
  | verbose
deriving DecidableEq, Repr

namespace RegexOption

/-- The options in the order of their bits, which is also that of their letters. -/
def all : List RegexOption := [ignoreCase, locale, multiline, dotAll, unicode, verbose]

def letter : RegexOption → Char
  | ignoreCase => 'i'
  | locale => 'l'
  | multiline => 'm'
  | dotAll => 's'
  | unicode => 'u'
  | verbose => 'x'

def bit : RegexOption → UInt32
  | ignoreCase => 2
  | locale => 4
  | multiline => 8
  | dotAll => 16
  | unicode => 32
  | verbose => 64

/-- The name in the text for debugging. -/
def name : RegexOption → String
  | ignoreCase => "IGNORE_CASE"
  | locale => "LOCALE"
  | multiline => "MULTILINE"
  | dotAll => "DOT_ALL"
  | unicode => "UNICODE"
  | verbose => "VERBOSE"

end RegexOption

/-- A mask of options. -/
structure RegexOptions where
  bits : UInt32
deriving DecidableEq

namespace RegexOptions

/-- Whether the mask has the bit of an option. -/
def has (m : RegexOptions) (o : RegexOption) : Bool := m.bits &&& o.bit == o.bit

/-- The options whose bits are set. -/
def toList (m : RegexOptions) : List RegexOption := RegexOption.all.filter m.has

/-- The mask of the options whose letters occur; other letters count for nothing. -/
def ofLetters (letters : String) : RegexOptions :=
  ⟨RegexOption.all.foldl (fun bits o => if letters.contains o.letter then bits ||| o.bit else bits)
    0⟩

/-- The letters of the options that are set, each once. -/
def letters (m : RegexOptions) : String := String.ofList (m.toList.map (·.letter))

/-- The bits of no option. -/
def unknown (m : RegexOptions) : UInt32 :=
  RegexOption.all.foldl (fun bits o => bits &&& ~~~o.bit) m.bits

theorem unknown_eq (m : RegexOptions) : m.unknown = m.bits &&& ~~~126 := by
  unfold unknown
  simp only [RegexOption.all, List.foldl_cons, List.foldl_nil, UInt32.and_assoc]
  rfl

/-- The names of the options that are set, with the remaining bits as one number at the end. -/
def debug (m : RegexOptions) : String :=
  let rest := if m.unknown == 0 then [] else [m.unknown]
  let numbers := if m.bits == 0 then [0] else rest
  let hex (n : UInt32) : String := "0x" ++ String.ofList (Nat.toDigits 16 n.toNat)
  " | ".intercalate (m.toList.map (·.name) ++ numbers.map hex)

end RegexOptions

end TypedDoc

import TypedDoc.Markup.Name

/-!
# References and line ends

Text and attribute values may name characters by reference. What stands in the text itself is
subject to the rules on line ends, and what a reference gives is not: a carriage return given by
its number stays one.
-/

namespace TypedDoc.Markup

/-- A character with its origin. -/
inductive Piece where
  /-- A character that stands in the text. -/
  | literal (c : Char)
  /-- A character given by a reference. -/
  | given (c : Char)
deriving DecidableEq

namespace Reference

/-- Appends a digit to a number that stays within 32 bits. -/
def extend? (base n : Nat) (digit : Option Nat) : Option Nat := do
  let next := base * n + (← digit)
  if next < 1 <<< 32 then some next else none

/-- The number of at most 32 bits that digits denote. -/
def number? (base : Nat) (digit? : Char → Option Nat) (ds : List Char) : Option Nat :=
  if ds.isEmpty then none else ds.foldlM (fun n c => extend? base n (digit? c)) 0

/-- A decimal digit. -/
def decimal? (c : Char) : Option Nat := if c.isDigit then some (c.toNat - 48) else none

/-- A hexadecimal digit of either case. -/
def hexadecimal? (c : Char) : Option Nat :=
  if c.isDigit then some (c.toNat - 48)
  else if 'a' ≤ c ∧ c ≤ 'f' then some (c.toNat - 87)
  else if 'A' ≤ c ∧ c ≤ 'F' then some (c.toNat - 55)
  else none

/-- The character with a number. A number of no character gives the replacement character, and a
character that markup does not allow is refused. -/
def ofNumber? (n : Nat) : Option Char :=
  let c := if n.isValidChar then Char.ofNat n else '\ufffd'
  if isAllowed c then some c else none

/-- The character that is named between an ampersand and a semicolon. -/
def ofName? (name : List Char) : Option Char :=
  match name with
  | '#' :: 'x' :: ds => (number? 16 hexadecimal? ds).bind ofNumber?
  | '#' :: ds => (number? 10 decimal? ds).bind ofNumber?
  | ['q', 'u', 'o', 't'] => some '"'
  | ['a', 'm', 'p'] => some '&'
  | ['a', 'p', 'o', 's'] => some '\''
  | ['l', 't'] => some '<'
  | ['g', 't'] => some '>'
  | _ => none

/-- Resolves references. The state is the text of a reference that has begun, reversed. -/
def resolve (done : List Piece) (pending : Option (List Char)) :
    List Char → Except Fault (List Piece)
  | [] => if pending.isSome then .error .invalidReference else .ok done.reverse
  | c :: cs =>
    match pending with
    | none => if c == '&' then resolve done (some []) cs else resolve (.literal c :: done) none cs
    | some name =>
      if c == ';' then
        match ofName? name.reverse with
        | some given => resolve (.given given :: done) none cs
        | none => .error .invalidReference
      else resolve done (some (c :: name)) cs

/-- The characters of a text with its references resolved. -/
def pieces (cs : List Char) : Except Fault (List Piece) := resolve [] none cs

end Reference

/-- Writes each line end as a line feed. A carriage return waits for the next literal character,
unless a reference comes first; the character after a reference is taken as it stands. The text so
far is reversed. -/
def joinText (asItStands : Bool) (done : List Char) : List Piece → List Char
  | [] => done.reverse
  | .given c :: rest => joinText true (c :: done) rest
  | .literal c :: rest =>
    let ended := c == '\r' && rest.isEmpty
    if asItStands then joinText false (c :: done) rest
    else
      match done with
      | '\r' :: done =>
        if ended then joinText false ('\n' :: '\n' :: done) rest
        else if c == '\n' then joinText false ('\n' :: done) rest
        else joinText false (c :: '\n' :: done) rest
      | done => joinText false ((if ended then '\n' else c) :: done) rest

/-- The characters of text, with references resolved and line ends as line feeds. -/
def textOf (cs : List Char) : Except Fault (List Char) := do
  return joinText false [] (← Reference.pieces cs)

/-- The characters of a section without references. -/
def sectionOf (cs : List Char) : List Char := joinText false [] (cs.map .literal)

/-- Writes each line end and each tab of an attribute value as a space. -/
def joinValue : List Piece → List Char
  | [] => []
  | .given c :: rest => c :: joinValue rest
  | .literal '\r' :: .literal '\n' :: rest => ' ' :: joinValue rest
  | .literal c :: rest => (if isSpace c then ' ' else c) :: joinValue rest

/-- The characters of an attribute value. -/
def valueOf (cs : List Char) : Except Fault (List Char) := do
  return joinValue (← Reference.pieces cs)

end TypedDoc.Markup

import TypedDoc.Text.Printable

/-!
# Quoted text

Text between double quotes. A quote and a backslash get a backslash, four control characters
have a letter of their own, and every other character that does not show by itself is written by
its code point.
-/

namespace TypedDoc.Text.Quoted

/-- The characters that stand for one character between quotes. -/
def escape (c : Char) : List Char :=
  match c with
  | '"' => ['\\', '"']
  | '\\' => ['\\', '\\']
  | '\n' => ['\\', 'n']
  | '\r' => ['\\', 'r']
  | '\t' => ['\\', 't']
  | '\x00' => ['\\', '0']
  | c =>
    if isPlainlyVisible c then [c]
    else ['\\', 'u', '{'] ++ Nat.toDigits 16 c.toNat ++ ['}']

/-- The characters between the quotes. -/
def encode (cs : List Char) : List Char := cs.flatMap escape

end TypedDoc.Text.Quoted

namespace TypedDoc.Text

/-- The text in double quotes. -/
def quoted (s : String) : String :=
  String.ofList ('"' :: Quoted.encode s.toList ++ ['"'])

end TypedDoc.Text

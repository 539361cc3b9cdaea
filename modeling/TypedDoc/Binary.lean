import TypedDoc.Error

/-!
# Binary payloads
-/

namespace TypedDoc

/-- Bytes with a subtype; 0 is the generic one. -/
structure Binary where
  bytes : List UInt8
  subtype : UInt8
deriving DecidableEq

namespace Binary

/-- The payload without bytes. -/
def empty : Binary := ⟨[], 0⟩

/-- Reads base64 text as a generic payload, ASCII blanks aside. -/
def read (text : String) : Except Error Binary :=
  match Text.Base64.decode (Text.utf8 (Text.squeeze text.toList)) with
  | .ok bytes => .ok ⟨bytes, 0⟩
  | .error fault => .error (.malformedValue "binary" text (.base64 fault))

/-- The base64 text of the bytes. -/
def base64 (b : Binary) : String := String.ofList (Text.Base64.encode b.bytes)

end Binary

end TypedDoc

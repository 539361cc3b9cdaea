import TypedDoc.Error
import TypedDoc.Text.Hex

/-!
# Object ids
-/

namespace TypedDoc

/-- An identifier of twelve bytes. -/
structure ObjectId where
  bytes : List UInt8
  length_bytes : bytes.length = 12
deriving DecidableEq

namespace ObjectId

/-- The bytes of 24 hexadecimal digits of either case, blanks around them aside. -/
def decode (text : String) : Except TextFault ObjectId :=
  let digits := Text.utf8 (Text.trimChars text.toList)
  if digits.length ≠ 24 then .error (.hexLength digits.length)
  else
    match Text.Hex.decode? digits with
    | none => .error .hexDigit
    | some bytes => if h : bytes.length = 12 then .ok ⟨bytes, h⟩ else .error .hexDigit

/-- Reads an identifier. -/
def read (text : String) : Except Error ObjectId :=
  (decode text).mapError (.malformedValue "oid" text)

/-- The 24 lowercase digits. -/
def hex (o : ObjectId) : String := String.ofList (Text.Hex.encode o.bytes)

/-- The order of the bytes, the first one counting most. -/
instance : LT ObjectId := ⟨fun a b => a.bytes < b.bytes⟩

instance (a b : ObjectId) : Decidable (a < b) := inferInstanceAs (Decidable (a.bytes < b.bytes))

/-- The identifiers in ascending order. -/
def sort (ids : List ObjectId) : List ObjectId := ids.mergeSort fun a b => !decide (b < a)

end ObjectId

end TypedDoc

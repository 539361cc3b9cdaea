import TypedDoc.Text.Blank

/-!
# Base64

The standard alphabet with required padding. A reader of groups of four symbols accepts exactly
the written forms: the padding fills the last group, and the bits of its last symbol that stand
for no byte are zero. Each fault says where it was found, as an offset in the bytes read.
-/

namespace TypedDoc.Text.Base64

/-- Why bytes are no base64. -/
inductive Fault where
  /-- A byte outside the alphabet, or padding where a symbol belongs. -/
  | symbol (byte : UInt8) (offset : Nat)
  /-- A last symbol with bits that stand for no byte. -/
  | lastSymbol (byte : UInt8) (offset : Nat)
  /-- A last group of one symbol. -/
  | length (symbols : Nat)
  /-- A last group that padding does not fill. -/
  | padding
deriving DecidableEq, Repr

/-- The text of a fault. -/
def Fault.message : Fault → String
  | symbol b k => s!"Invalid symbol {b.toNat}, offset {k}."
  | lastSymbol b k => s!"Invalid last symbol {b.toNat}, offset {k}."
  | length n => s!"Invalid input length: {n}"
  | padding => "Invalid padding"

/-- The symbol for a number below 64. -/
def symbol (n : Nat) : Char :=
  if n < 26 then Char.ofNat (65 + n)
  else if n < 52 then Char.ofNat (71 + n)
  else if n < 62 then Char.ofNat (n - 4)
  else if n = 62 then '+'
  else '/'

/-- The number that a byte denotes as a symbol. -/
def value? (b : UInt8) : Option Nat :=
  if 65 ≤ b && b ≤ 90 then some (b.toNat - 65)
  else if 97 ≤ b && b ≤ 122 then some (b.toNat - 71)
  else if 48 ≤ b && b ≤ 57 then some (b.toNat + 4)
  else if b == 43 then some 62
  else if b == 47 then some 63
  else none

/-- The padding byte, an equals sign. -/
def pad : UInt8 := 61

/-- Three bytes a group of four symbols; the last group is filled with padding. -/
def encode : List UInt8 → List Char
  | [] => []
  | [a] => [symbol (a.toNat / 4), symbol (a.toNat % 4 * 16), '=', '=']
  | [a, b] =>
    [symbol (a.toNat / 4), symbol (a.toNat % 4 * 16 + b.toNat / 16), symbol (b.toNat % 16 * 4),
      '=']
  | a :: b :: c :: rest =>
    symbol (a.toNat / 4) :: symbol (a.toNat % 4 * 16 + b.toNat / 16) ::
      symbol (b.toNat % 16 * 4 + c.toNat / 64) :: symbol (c.toNat % 64) :: encode rest

/-- The number of the symbol at `offset`. -/
def value (offset : Nat) (b : UInt8) : Except Fault Nat :=
  match value? b with
  | none => .error (.symbol b offset)
  | some n => .ok n

/-- The numbers of a run of symbols that starts at `offset`. -/
def values (offset : Nat) : List UInt8 → Except Fault (List Nat)
  | [] => .ok []
  | b :: rest => return (← value offset b) :: (← values (offset + 1) rest)

/-- The byte made of the upper bits of `x` and the lower bits of `y`, as symbols share them. -/
def join (x y shift : Nat) : UInt8 := UInt8.ofNat (x * shift + y / (64 / shift))

/-- The bytes of a full group. -/
def groupBytes (w x y z : Nat) : List UInt8 := [join w x 4, join (x % 16) y 16, join (y % 4) z 64]

/-- Reads the last group, which starts at `offset` and has at most four bytes. -/
def lastGroup (offset : Nat) (group : List UInt8) : Except Fault (List UInt8) := do
  let symbols := group.takeWhile (· != pad)
  let rest := group.dropWhile (· != pad)
  let numbers ← values offset symbols
  if !rest.isEmpty && (symbols.length < 2 || rest.any (· != pad)) then
    throw (.symbol pad (offset + symbols.length))
  let spill := Fault.lastSymbol (symbols.getLastD pad) (offset + symbols.length - 1)
  match numbers with
  | [w, x] =>
    if group.length != 4 then throw .padding
    if x % 16 != 0 then throw spill
    return [join w x 4]
  | [w, x, y] =>
    if group.length != 4 then throw .padding
    if y % 4 != 0 then throw spill
    return [join w x 4, join (x % 16) y 16]
  | [w, x, y, z] => return groupBytes w x y z
  | short => throw (.length (offset + short.length))

/-- Reads groups; every group but the last is full and has no padding. -/
def groups (offset : Nat) : List UInt8 → Except Fault (List UInt8)
  | [] => .ok []
  | a :: b :: c :: d :: e :: rest => do
    let w ← value offset a
    let x ← value (offset + 1) b
    let y ← value (offset + 2) c
    let z ← value (offset + 3) d
    return groupBytes w x y z ++ (← groups (offset + 4) (e :: rest))
  | last => lastGroup offset last

/-- Reads base64. A lone byte after full groups that is neither a symbol nor padding is reported
ahead of any other fault. -/
def decode (bytes : List UInt8) : Except Fault (List UInt8) :=
  match bytes.getLast? with
  | some b =>
    if bytes.length % 4 == 1 && b != pad && (value? b).isNone then
      .error (.symbol b (bytes.length - 1))
    else groups 0 bytes
  | none => .ok []

end TypedDoc.Text.Base64

import TypedDoc.Value

/-!
# Equality of values

Values are equal if they are of one kind and have equal contents; numbers compare as numbers, so
a value that holds a NaN differs from itself. Documents are equal if they have the same keys in the
same order with equal values, and arrays if they have equal items.
-/

namespace TypedDoc.Value

mutual

/-- Equality of values. -/
def beq : Value → Value → Bool
  | null, null => true
  | boolean a, boolean b => a == b
  | integer a, integer b => a == b
  | number a, number b => a == b
  | string a, string b => a == b
  | binary a, binary b => a == b
  | array as, array bs => beqItems as bs
  | document ⟨order, table⟩, document ⟨order', table'⟩ => order == order' && beqTable table table'
  | date a, date b => a == b
  | regex a, regex b => a == b
  | objectId a, objectId b => a == b
  | reference c a, reference c' b => c == c' && beq a b
  | code a, code b => a == b
  | _, _ => false

/-- Equality of arrays, item by item. -/
def beqItems : List Value → List Value → Bool
  | [], [] => true
  | a :: as, b :: bs => beq a b && beqItems as bs
  | _, _ => false

/-- Equality of tables, entry by entry. -/
def beqTable : List (String × Value) → List (String × Value) → Bool
  | [], [] => true
  | (k, a) :: as, (k', b) :: bs => k == k' && beq a b && beqTable as bs
  | _, _ => false

end

instance : BEq Value := ⟨beq⟩

end TypedDoc.Value

namespace TypedDoc.Document

/-- Equality of documents: the keys in order, and the values. -/
def beq (d e : Document) : Bool := d.order == e.order && Value.beqTable d.table e.table

instance : BEq Document := ⟨beq⟩

/-- Equality with a table, which has no order: as many keys, and an equal value for each. -/
def hasContents (d : Document) (t : Table Value) : Bool :=
  d.size == t.length && d.table.all fun e => t.find? e.1 == some e.2

end TypedDoc.Document

/-- Equality of a table with a document is that of the document with the table. -/
def TypedDoc.Table.isContentsOf (t : Table Value) (d : Document) : Bool := d.hasContents t

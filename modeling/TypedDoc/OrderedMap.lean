import TypedDoc.Error
import TypedDoc.Table

/-!
# Ordered maps

A map from keys to values that also remembers in which order its keys first came: a table for
looking values up, and beside it the list of keys. Writing to a key that is present leaves its
position as it is, and a key that was taken out comes back at the end. An operation that changes a
map gives its answer and the map after it; one that fails gives the map as it was.
-/

namespace TypedDoc

/-- Keys in the order in which they came, and the entries of the table of their values. -/
structure OrderedMap (α : Type) where
  order : List String
  entries : List (String × α)

namespace OrderedMap

variable {α β : Type}

/-- The table of the values. -/
abbrev table (m : OrderedMap α) : Table α := m.entries

/-- The two parts agree: no key is listed twice, and the listed keys are those of the table. -/
structure WellFormed (m : OrderedMap α) : Prop where
  nodup_order : m.order.Nodup
  ascending_table : m.table.Ascending
  mem_order_iff : ∀ k, k ∈ m.order ↔ k ∈ m.table.keys

/-- The map without keys. -/
def empty : OrderedMap α := ⟨[], []⟩

instance : Inhabited (OrderedMap α) := ⟨empty⟩

/-- The number of keys. -/
def size (m : OrderedMap α) : Nat := m.order.length

def isEmpty (m : OrderedMap α) : Bool := m.order.isEmpty

def contains (m : OrderedMap α) (key : String) : Bool := m.table.contains key

/-- The value of a key. -/
def get? (m : OrderedMap α) (key : String) : Option α := m.table.find? key

/-- The value of a key, or another value if the key is absent. -/
def getD (m : OrderedMap α) (key : String) (default : α) : α := (m.get? key).getD default

/-- The value of a key that should be present. -/
def get (m : OrderedMap α) (key : String) : Except Error α :=
  match m.get? key with
  | some v => .ok v
  | none => .error (.keyNotFound key)

/-- The keys in order. -/
def keys (m : OrderedMap α) : List String := m.order

/-- The pairs in order. -/
def items (m : OrderedMap α) : List (String × α) := m.table.arrange m.order

/-- The values in the order of their keys. -/
def values (m : OrderedMap α) : List α := m.items.map (·.2)

/-- Gives a key a value, at the end if the key is new, and answers with the value before. -/
def put (m : OrderedMap α) (key : String) (value : α) : Option α × OrderedMap α :=
  match m.get? key with
  | some old => (some old, { m with entries := m.table.insert key value })
  | none => (none, ⟨m.order ++ [key], m.table.insert key value⟩)

/-- Gives a key a value. -/
def set (m : OrderedMap α) (key : String) (value : α) : OrderedMap α := (m.put key value).2

/-- Gives a key a value unless it has one, and answers with the value that it has now. -/
def setDefault (m : OrderedMap α) (key : String) (default : α) : α × OrderedMap α :=
  match m.get? key with
  | some value => (value, m)
  | none => (default, ⟨m.order ++ [key], m.table.insert key default⟩)

/-- Changes the value of a key in place, with an answer computed on the way; nothing happens if
the key is absent. -/
def modify (m : OrderedMap α) (key : String) (f : α → β × α) : Option β × OrderedMap α :=
  match m.get? key with
  | some value =>
    let (answer, value) := f value
    (some answer, { m with entries := m.table.insert key value })
  | none => (none, m)

/-- Takes a key out and answers with its value. -/
def remove? (m : OrderedMap α) (key : String) : Option α × OrderedMap α :=
  match m.get? key with
  | some value => (some value, ⟨m.order.erase key, m.table.erase key⟩)
  | none => (none, m)

/-- Takes out a key that should be present. -/
def delete (m : OrderedMap α) (key : String) : Except Error Unit × OrderedMap α :=
  match m.remove? key with
  | (some _, m) => (.ok (), m)
  | (none, m) => (.error (.keyNotFound key), m)

/-- Takes a key out and answers with its value, or with another value if the key is absent. -/
def popD (m : OrderedMap α) (key : String) (default : α) : α × OrderedMap α :=
  match m.remove? key with
  | (some value, m) => (value, m)
  | (none, m) => (default, m)

/-- Takes a key out with at most one default for its value. A second default is refused before
anything else is looked at. -/
def popWith (m : OrderedMap α) (key : String) (defaults : List α) :
    Except Error α × OrderedMap α :=
  match defaults with
  | _ :: _ :: _ => (.error (.argument (.tooManyDefaults defaults.length)), m)
  | [default] =>
    let (value, m) := m.popD key default
    (.ok value, m)
  | [] =>
    match m.remove? key with
    | (some value, m) => (.ok value, m)
    | (none, m) => (.error (.keyNotFound key), m)

/-- Takes a key out and answers with its value. -/
def pop (m : OrderedMap α) (key : String) : Except Error α × OrderedMap α := m.popWith key []

/-- Takes the first pair out. -/
def takeFirst (m : OrderedMap α) : Option (String × α) × OrderedMap α :=
  match m.order with
  | [] => (none, m)
  | key :: rest => ((m.get? key).map (key, ·), ⟨rest, m.table.erase key⟩)

/-- Takes the first pair out of a map that should have one. -/
def popItem (m : OrderedMap α) : Except Error (String × α) × OrderedMap α :=
  match m.takeFirst with
  | (some pair, m) => (.ok pair, m)
  | (none, m) => (.error .emptyContainer, m)

/-- The map without its keys. -/
def clear (_ : OrderedMap α) : OrderedMap α := empty

/-- Writes pairs one after another. -/
def extend (m : OrderedMap α) (ps : List (String × α)) : OrderedMap α :=
  ps.foldl (fun m p => m.set p.1 p.2) m

/-- The map of some pairs: the keys where they first came, each with its last value. -/
def ofPairs (ps : List (String × α)) : OrderedMap α := empty.extend ps

end OrderedMap

end TypedDoc

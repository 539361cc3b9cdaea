import TypedDoc.OrderedMap

/-!
# Walks over ordered maps

A cursor reads the pairs of a map from both ends without changing the map. A drain takes them out
of the map from the front.
-/

namespace TypedDoc.OrderedMap

variable {α : Type}

/-- The keys that are still to come, and the table of the map. -/
structure Cursor (α : Type) where
  ahead : List String
  table : Table α

/-- A cursor over all pairs. -/
def cursor (m : OrderedMap α) : Cursor α := ⟨m.order, m.table⟩

namespace Cursor

/-- The number of pairs still to come. -/
def size (c : Cursor α) : Nat := c.ahead.length

/-- The next pair from the front. -/
def next (c : Cursor α) : Option (String × α) × Cursor α :=
  match c.ahead with
  | [] => (none, c)
  | key :: rest => ((c.table.find? key).map (key, ·), { c with ahead := rest })

/-- The next pair from the back. -/
def nextBack (c : Cursor α) : Option (String × α) × Cursor α :=
  match c.ahead.getLast? with
  | none => (none, c)
  | some key => ((c.table.find? key).map (key, ·), { c with ahead := c.ahead.dropLast })

end Cursor

/-- Takes all pairs out, each with the number of pairs left after it. -/
def drain (m : OrderedMap α) : List ((String × α) × Nat) :=
  go m.order.length m
where
  /-- At most `n` pairs. -/
  go : Nat → OrderedMap α → List ((String × α) × Nat)
    | 0, _ => []
    | n + 1, m =>
      match m.takeFirst with
      | (none, _) => []
      | (some pair, m) => (pair, m.size) :: go n m

end TypedDoc.OrderedMap

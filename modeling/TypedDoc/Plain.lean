import TypedDoc.Value

/-!
# Plain trees

A plain tree forgets the order of keys: documents become tables and arrays become lists, down to
the values of every other kind, which stay as they are. A reference is such a value, so a document
that serves as its identifier keeps its order.
-/

namespace TypedDoc

/-- A tree of tables and lists over values. -/
inductive Plain where
  | map (entries : List (String × Plain))
  | list (items : List Plain)
  | scalar (v : Value)

mutual

/-- The plain tree of a value. -/
def Value.flatten : Value → Plain
  | .document ⟨_, entries⟩ => .map (Value.flattenEntries entries)
  | .array items => .list (Value.flattenItems items)
  | v => .scalar v

/-- The plain trees of the items of an array. -/
def Value.flattenItems : List Value → List Plain
  | [] => []
  | v :: vs => v.flatten :: Value.flattenItems vs

/-- The plain trees of the values of a table. -/
def Value.flattenEntries : List (String × Value) → List (String × Plain)
  | [] => []
  | (k, v) :: rest => (k, v.flatten) :: Value.flattenEntries rest

end

/-- The table of the plain trees of a document's values. -/
def Document.flatten (d : Document) : Table Plain := Value.flattenEntries d.entries

namespace Plain

def map? : Plain → Option (Table Plain)
  | map entries => some entries
  | _ => none

def list? : Plain → Option (List Plain)
  | list items => some items
  | _ => none

def scalar? : Plain → Option Value
  | scalar v => some v
  | _ => none

/-- A step into a tree: a key of a table or a position of a list. -/
inductive Step where
  | key (k : String)
  | index (i : Nat)
deriving DecidableEq, Repr

/-- The tree one step below. -/
def step? : Plain → Step → Option Plain
  | map entries, .key k => Table.find? entries k
  | list items, .index i => items[i]?
  | _, _ => none

/-- The trees met along a path, as far as its steps lead. -/
def walk (p : Plain) : List Step → List Plain
  | [] => []
  | s :: rest =>
    match p.step? s with
    | some q => q :: q.walk rest
    | none => []

/-- The tree at the end of a path. -/
def follow? (p : Plain) : List Step → Option Plain
  | [] => some p
  | s :: rest => (p.step? s).bind (·.follow? rest)

end Plain

end TypedDoc

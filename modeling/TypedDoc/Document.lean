import TypedDoc.Value.Equality

/-!
# Updating documents

A document is updated from a source of pairs: another document, a mapping that lists its keys, a
sequence of pairs, or a value that holds pairs. The whole source is checked before anything is
written, so a source that is refused leaves the document as it was.
-/

namespace TypedDoc

/-- Something that lists keys and looks values up; it may list a key that it has no value for. -/
structure Mapping where
  keys : List String
  find? : String → Option Value

namespace Mapping

/-- A document, read through its keys. -/
def ofDocument (d : Document) : Mapping := ⟨d.keys, d.get?⟩

/-- A table, read in ascending order of its keys. -/
def ofTable (t : Table Value) : Mapping := ⟨t.keys, t.find?⟩

/-- The listed keys with their values. -/
def pairs (m : Mapping) : Except Error (List (String × Value)) :=
  m.keys.mapM fun key =>
    match m.find? key with
    | some value => .ok (key, value)
    | none => .error (.argument (.danglingKey key))

end Mapping

/-- What a document can be updated from. -/
inductive Source where
  | document (d : Document)
  | mapping (m : Mapping)
  | pairs (ps : List (String × Value))
  | value (v : Value)

/-- The key and the value in an array of two. -/
def Value.pair : Value → Except Error (String × Value)
  | .array [.string key, value] => .ok (key, value)
  | .array [other, _] => .error (.argument (.keyNotAString other.kind))
  | other => .error (.argument (.notAPair other.kind))

/-- The pairs of a source in its order. -/
def Source.toPairs : Source → Except Error (List (String × Value))
  | document d => .ok d.items
  | mapping m => m.pairs
  | pairs ps => .ok ps
  | value (.document d) => .ok d.items
  | value (.array items) => items.mapM Value.pair
  | value other => .error (.argument (.notASource other.kind))

namespace Document

/-- Writes the pairs of a source. -/
def update (d : Document) (source : Source) : Except Error Unit × Document :=
  match source.toPairs with
  | .ok ps => (.ok (), d.extend ps)
  | .error e => (.error e, d)

/-- Writes the pairs of a source, if there is one, and then the overrides. -/
def updateWith (d : Document) (source : Option Source) (overrides : List (String × Value)) :
    Except Error Unit × Document :=
  match source.map d.update with
  | some (.error e, d) => (.error e, d)
  | some (.ok _, d) => (.ok (), d.extend overrides)
  | none => (.ok (), d.extend overrides)

/-- The document of a mapping, in the order of its keys. -/
def ofMapping (m : Mapping) : Except Error Document := m.pairs.map OrderedMap.ofPairs

end Document

end TypedDoc

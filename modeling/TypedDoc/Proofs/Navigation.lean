import TypedDoc.Proofs.Equality

/-!
# Paths through flattened documents

A path of keys and positions leads through a document and through its plain tree in the same way:
a step leads somewhere in the one exactly if it does in the other, and what is met in the tree is
what becomes of the value met in the document (`Value.step?_flatten`). On the way no pair and no
item gets lost: every table has as many entries as the document that it came from, and every list as
many items as its array (`Value.mirrored_flatten`).
-/

namespace TypedDoc

open Plain (Step)

namespace Value

/-- The value one step below: that of a key of a document, or an item of an array. -/
def step? : Value → Step → Option Value
  | document d, .key k => d.get? k
  | array items, .index i => items[i]?
  | _, _ => none

/-- The values met along a path, as far as its steps lead. -/
def walk (v : Value) : List Step → List Value
  | [] => []
  | s :: rest =>
    match v.step? s with
    | some w => w :: w.walk rest
    | none => []

/-- The value at the end of a path. -/
def follow? (v : Value) : List Step → Option Value
  | [] => some v
  | s :: rest => (v.step? s).bind (·.follow? rest)

theorem step?_flatten (v : Value) (s : Step) : v.flatten.step? s = (v.step? s).map flatten := by
  cases v with
  | document d =>
    cases s with
    | key k =>
      show Table.find? (flattenEntries d.entries) k = (d.table.find? k).map flatten
      rw [flattenEntries_eq, Table.find?_map]
    | index i => rfl
  | array items =>
    rw [flatten_array]
    cases s with
    | key k => rfl
    | index i => exact List.getElem?_map
  | _ => rfl

theorem follow?_flatten (v : Value) (path : List Step) :
    v.flatten.follow? path = (v.follow? path).map flatten := by
  induction path generalizing v with
  | nil => rfl
  | cons s rest ih =>
    rw [Plain.follow?, follow?, step?_flatten, Option.bind_map, Option.map_bind]
    exact congrArg _ (funext fun w => ih w)

theorem walk_flatten (v : Value) (path : List Step) :
    v.flatten.walk path = (v.walk path).map flatten := by
  induction path generalizing v with
  | nil => rfl
  | cons s rest ih =>
    rw [Plain.walk, walk, step?_flatten]
    rcases v.step? s with _ | w
    · rfl
    · rw [List.map_cons, ← ih w]
      rfl

theorem WellFormed.of_step? {v w : Value} {s : Step} (hv : v.WellFormed)
    (h : v.step? s = some w) : w.WellFormed := by
  refine hv.of_mem_parts ?_
  cases v with
  | document d =>
    cases s with
    | key k =>
      have hp := (hv d .self).items_perm_entries.mem_iff.2 (Table.mem_of_find? h)
      exact OrderedMap.mem_values_of_mem hp
    | index i => cases h
  | array items =>
    cases s with
    | key k => cases h
    | index i => exact List.mem_of_getElem? h
  | _ => cases h

theorem WellFormed.of_mem_walk {v w : Value} {path : List Step} (hv : v.WellFormed)
    (h : w ∈ v.walk path) : w.WellFormed := by
  induction path generalizing v with
  | nil => cases h
  | cons s rest ih =>
    unfold walk at h
    split at h
    · next u hu =>
      rcases List.mem_cons.1 h with rfl | h
      · exact hv.of_step? hu
      · exact ih (hv.of_step? hu) h
    · cases h

/-- A value and the node that came from it: the table that the pairs of a document make, with an
entry for each of them, the list of the items of an array, or a leaf. -/
inductive Mirrored : Value → Plain → Prop
  | document {d : Document} {t : Table Plain} :
    t = .ofPairs (d.items.map fun p => (p.1, p.2.flatten)) → t.length = d.size →
    Mirrored (document d) (.map t)
  | array {items : List Value} {ps : List Plain} : ps.length = items.length →
    Mirrored (array items) (.list ps)
  | leaf {v : Value} : v.kind ≠ .document → v.kind ≠ .array → Mirrored v (.scalar v)

end Value

namespace Document

variable {d : Document}

/-- The table of a document is what its pairs make, each with its value changed. -/
theorem flatten_eq_ofPairs (hd : d.WellFormed) :
    d.flatten = .ofPairs (d.items.map fun p => (p.1, p.2.flatten)) := by
  have htable := (hd.mapValues Value.flatten).table_ofPairs_items
  rw [OrderedMap.items_mapValues] at htable
  rw [htable, flatten, Value.flattenEntries_eq]
  rfl

theorem length_flatten (hd : d.WellFormed) : d.flatten.length = d.size := by
  rw [flatten, Value.flattenEntries_eq, List.length_map, hd.size_eq_length_entries]

end Document

namespace Value

theorem mirrored_flatten {v : Value} (hv : v.WellFormed) : Mirrored v v.flatten := by
  cases v with
  | document d =>
    have hd := hv d .self
    exact .document (Document.flatten_eq_ofPairs hd) (Document.length_flatten hd)
  | array items =>
    rw [flatten_array]
    exact .array (List.length_map _)
  | _ => exact .leaf (by simp [kind]) (by simp [kind])

theorem mirrored_walk {v : Value} (hv : v.WellFormed) (path : List Step) :
    List.Forall₂ Mirrored (v :: v.walk path) (v.flatten :: v.flatten.walk path) := by
  rw [walk_flatten, ← List.map_cons, List.forall₂_map_right_iff, List.forall₂_same]
  intro w hw
  rcases List.mem_cons.1 hw with rfl | hw
  · exact mirrored_flatten hv
  · exact mirrored_flatten (hv.of_mem_walk hw)

end Value

/-- A path leads through the plain tree of a document exactly as far as through the document, and
what is met in the tree, at its end and on the way, are the plain trees of the values met in the
document. Every table on the way has as many entries as the document that it came from, every list as
many items as its array, and neither way leads into a reference. -/
theorem Document.flatten_navigates (d : Document) (path : List Step) :
    (Plain.map d.flatten).follow? path = ((Value.document d).follow? path).map Value.flatten
      ∧ (Plain.map d.flatten).walk path = ((Value.document d).walk path).map Value.flatten
      ∧ ((Value.document d).WellFormed → List.Forall₂ Value.Mirrored
        (.document d :: (Value.document d).walk path)
        (.map d.flatten :: (Plain.map d.flatten).walk path))
      ∧ ∀ (collection : String) (id : Value) (s : Step),
        (Value.reference collection id).step? s = none
          ∧ (Value.reference collection id).flatten.step? s = none :=
  ⟨Value.follow?_flatten (.document d) path, Value.walk_flatten (.document d) path,
    fun hd => Value.mirrored_walk hd path, fun _ _ _ => ⟨rfl, rfl⟩⟩

/-- The way to a reference to a document, and a step too far. -/
theorem Document.flatten_navigates_reference :
    let r : Value := .reference "c" (.document (.ofPairs [("x", .null)]))
    let d : Document := .ofPairs [("a", .array [.null, .document (.ofPairs [("k", r)])])]
    let path : List Step := [.key "a", .index 1, .key "k"]
    (Plain.map d.flatten).follow? path = some (.scalar r)
      ∧ (Plain.map d.flatten).follow? (path ++ [.key "x"]) = none
      ∧ List.Forall₂ Value.Mirrored (.document d :: (Value.document d).walk path)
        (.map d.flatten :: (Plain.map d.flatten).walk path) := by
  intro r d path
  refine ⟨(flatten_navigates d path).1.trans rfl, (flatten_navigates d _).1.trans rfl,
    (flatten_navigates d path).2.2.1 ?_⟩
  have hnull : Value.WellFormed .null := Value.wellFormed_iff.2 ⟨nofun, nofun⟩
  have hr : r.WellFormed := Value.wellFormed_iff.2
    ⟨nofun, fun w hw => List.mem_singleton.1 hw ▸ Value.wellFormed_single "x" hnull⟩
  refine Value.wellFormed_single "a" (Value.wellFormed_iff.2 ⟨nofun, fun w hw => ?_⟩)
  rcases List.mem_pair.1 hw with rfl | rfl
  · exact hnull
  · exact Value.wellFormed_single "k" hr

end TypedDoc

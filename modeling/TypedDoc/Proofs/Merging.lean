import TypedDoc.Proofs.Items

/-!
# Writing many pairs

Pairs that are written to a map count only by the latest of each key (`PairList.latest`): where the
key first came among them decides its place, and where it came last its value. The keys of the map
keep their places, and the new ones follow (`OrderedMap.extend_by_latest`). So pairs may be gathered
in a map of their own before they are written (`OrderedMap.WellFormed.extend_items_ofPairs`), which
makes updating from documents an associative and idempotent merge that leaves the empty document
neutral (`Document.merge_laws`).
-/

namespace TypedDoc

/-- The keys of some pairs where they first came, each with its last value. -/
def PairList.latest {α : Type} (ps : List (String × α)) : List (String × α) :=
  (ps.map (·.1)).eraseDups.filterMap fun k => (ps.reverse.lookup k).map (k, ·)

open PairList

namespace OrderedMap

variable {α : Type} {m : OrderedMap α}

theorem items_eq_filterMap (m : OrderedMap α) :
    m.items = m.order.filterMap fun k => (m.get? k).map (k, ·) := rfl

theorem items_ofPairs_eq_latest (ps : List (String × α)) : (ofPairs ps).items = latest ps := by
  simp only [items_eq_filterMap, order_ofPairs, get?_ofPairs, latest]

namespace WellFormed

theorem filterMap_order (h : m.WellFormed) (ps : List (String × α)) :
    (m.order.filterMap fun k => ((ps.reverse.lookup k).or (m.get? k)).map (k, ·)) =
      m.items.map fun p => (p.1, (ps.reverse.lookup p.1).getD p.2) := by
  rw [items_eq_filterMap, List.map_filterMap]
  refine List.filterMap_congr fun k hk => ?_
  obtain ⟨v, hv⟩ := h.get?_of_mem hk
  rcases hl : ps.reverse.lookup k with _ | w <;> simp [hv, hl]

theorem filterMap_new (h : m.WellFormed) (ps : List (String × α)) :
    (((ps.map (·.1)).eraseDups.filter (· ∉ m.order)).filterMap
        fun k => ((ps.reverse.lookup k).or (m.get? k)).map (k, ·)) =
      (latest ps).filter (·.1 ∉ m.order) := by
  rw [latest, List.filterMap_filter, List.filter_filterMap]
  refine List.filterMap_congr fun k _ => ?_
  by_cases hk : k ∈ m.order
  · rcases ps.reverse.lookup k with _ | w <;> simp [hk, Option.filter]
  · have hnone : m.get? k = none := by
      rwa [h.mem_order_iff_isSome, Option.not_isSome_iff_eq_none] at hk
    rcases ps.reverse.lookup k with _ | w <;> simp [hk, hnone, Option.filter]

end WellFormed

/-- Pairs written to a map: first the keys of the map in their old order, each with the last value
that it is given, or its own if it is given none; then the keys that the map did not have, in the
order in which they first came, each with its last value. -/
theorem extend_by_latest (h : m.WellFormed) (ps : List (String × α)) :
    (m.extend ps).items = (m.items.map fun p => (p.1, (ps.reverse.lookup p.1).getD p.2)) ++
          (latest ps).filter (·.1 ∉ m.keys)
      ∧ (m.extend ps).keys = m.keys ++ (ps.map (·.1)).eraseDups.filter (· ∉ m.keys)
      ∧ (ofPairs ps).items = latest ps ∧ (ofPairs ps).keys = (ps.map (·.1)).eraseDups
      ∧ ofPairs m.items = m := by
  refine ⟨?_, h.order_extend ps, items_ofPairs_eq_latest ps, order_ofPairs ps, ofPairs_items h⟩
  rw [items_eq_filterMap (m.extend ps), h.order_extend, List.filterMap_append]
  simp only [get?_extend]
  rw [h.filterMap_order, h.filterMap_new, keys]

/-- A key that the map has keeps its place, and a new one that comes twice has the place of the
first pair and the value of the second. -/
theorem extend_by_latest_repeated :
    (extend (ofPairs [("a", 1), ("b", 2)]) [("d", 3), ("b", 4), ("c", 5), ("d", 6)]).items =
      [("a", 1), ("b", 4), ("d", 6), ("c", 5)] :=
  (extend_by_latest (wellFormed_ofPairs [("a", 1), ("b", 2)]) _).1.trans rfl

theorem extend_append (m : OrderedMap α) (ps qs : List (String × α)) :
    m.extend (ps ++ qs) = (m.extend ps).extend qs := List.foldl_append

namespace WellFormed

/-- Pairs that make the same map have the same effect on every map. -/
theorem extend_congr (h : m.WellFormed) {ps qs : List (String × α)} (hpq : ofPairs ps = ofPairs qs) :
    m.extend ps = m.extend qs := by
  refine (h.extend ps).ext_get? (h.extend qs) ?_ fun key => ?_
  · rw [h.order_extend, h.order_extend, ← order_ofPairs, ← order_ofPairs, hpq]
  · rw [get?_extend, get?_extend, ← get?_ofPairs, ← get?_ofPairs, hpq]

theorem extend_items_ofPairs (h : m.WellFormed) (ps : List (String × α)) :
    m.extend (ofPairs ps).items = m.extend ps :=
  h.extend_congr (ofPairs_items (wellFormed_ofPairs ps))

theorem extend_self (h : m.WellFormed) : m.extend m.items = m := by
  refine (h.extend _).ext_get? h ?_ fun key => ?_
  · rw [h.order_extend, h.keys_items]
    simp
  · rw [get?_extend, ← get?_ofPairs, ofPairs_items h]
    exact Option.or_self

end WellFormed

end OrderedMap

namespace Document

open OrderedMap

variable {a b : Document}

/-- A copy of a document, updated from another one. -/
def merge (a b : Document) : Document := (a.update (.document b)).2

theorem merge_eq_extend (a b : Document) : a.merge b = a.extend b.items := rfl

theorem wellFormed_merge (ha : a.WellFormed) (b : Document) : (a.merge b).WellFormed :=
  ha.extend b.items

theorem ofPairs_append_eq_merge (xs ys : List (String × Value)) :
    (.ofPairs (xs ++ ys) : Document) = merge (.ofPairs xs) (.ofPairs ys) := by
  rw [merge_eq_extend, (wellFormed_ofPairs xs).extend_items_ofPairs]
  exact extend_append .empty xs ys

theorem merge_assoc (ha : a.WellFormed) (hb : b.WellFormed) (c : Document) :
    (a.merge b).merge c = a.merge (b.merge c) := by
  have hbc : b.merge c = .ofPairs (b.items ++ c.items) := by
    rw [OrderedMap.ofPairs, extend_append, ← OrderedMap.ofPairs, ofPairs_items hb]
    rfl
  calc (a.merge b).merge c = a.extend (b.items ++ c.items) := (extend_append a _ _).symm
    _ = a.merge (b.merge c) := by rw [hbc, merge_eq_extend, ha.extend_items_ofPairs]

theorem foldl_merge (ha : a.WellFormed) (ds : List Document) : ∀ {b : Document}, b.WellFormed →
    ds.foldl merge (a.merge b) = a.merge (ds.foldl merge b) := by
  induction ds with
  | nil => exact fun _ => rfl
  | cons d ds ih =>
    intro b hb
    rw [List.foldl_cons, List.foldl_cons, merge_assoc ha hb, ih (wellFormed_merge hb d)]

/-- Updating a copy of one document from another never fails, and it is a merge: it does not matter
in which order the updates of three documents are grouped, the empty document changes nothing on
either side, and a document is not changed by itself. Pairs one after another make the merge of what
they make apart. So documents merged first and written then give what they give one by one. -/
theorem merge_laws (ha : a.WellFormed) (hb : b.WellFormed) (c : Document) :
    a.update (.document b) = (.ok (), a.merge b)
      ∧ (a.merge b).merge c = a.merge (b.merge c)
      ∧ merge .empty a = a ∧ a.merge .empty = a ∧ a.merge a = a
      ∧ (∀ xs ys : List (String × Value),
        (.ofPairs (xs ++ ys) : Document) = merge (.ofPairs xs) (.ofPairs ys))
      ∧ ∀ ds : List Document, ds.foldl merge a = a.merge (ds.foldl merge .empty) :=
  ⟨rfl, merge_assoc ha hb c, ofPairs_items ha, rfl, ha.extend_self, ofPairs_append_eq_merge,
    fun ds => foldl_merge ha ds wellFormed_empty⟩

/-- Three documents of which any two share a key: each key stands where it first came, and the last
document with the key gives its value. -/
theorem merge_laws_overlapping :
    let a : Document := .ofPairs [("x", .code "a"), ("y", .code "a")]
    let b : Document := .ofPairs [("z", .code "b"), ("y", .code "b")]
    let c : Document := .ofPairs [("z", .code "c"), ("x", .code "c")]
    (a.merge (b.merge c)).items = [("x", .code "c"), ("y", .code "b"), ("z", .code "c")] := by
  intro a b c
  rw [← (merge_laws (wellFormed_ofPairs _) (wellFormed_ofPairs _) c).2.1]
  rfl

end Document

end TypedDoc

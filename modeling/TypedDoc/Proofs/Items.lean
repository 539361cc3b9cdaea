import Mathlib.Data.List.Induction
import TypedDoc.Proofs.Parts

/-!
# Maps by their pairs

A table is determined by what it has for each key, so a well-formed map is determined by its pairs
in order (`OrderedMap.ext_items`), and it is the map that its pairs make
(`OrderedMap.ofPairs_items`). When pairs are written to a map, its keys keep their places and new
ones follow where they first came (`OrderedMap.WellFormed.order_extend`), each with its last value
(`OrderedMap.get?_extend`). Changing every value in its place keeps keys, order and agreement of the
two parts.
-/

namespace TypedDoc

theorem eraseDups_concat {α : Type} [BEq α] [LawfulBEq α] (as : List α) (a : α) :
    (as ++ [a]).eraseDups = as.eraseDups ++ if a ∈ as then [] else [a] := by
  rw [List.eraseDups_append]
  by_cases h : a ∈ as
  · simp [List.removeAll, h]
  · simp [List.removeAll, h, List.eraseDups_cons]

namespace Table

variable {α : Type} {t t' : Table α}

theorem find?_eq_some_iff (h : t.keys.Nodup) {key : String} {v : α} :
    t.find? key = some v ↔ (key, v) ∈ t := by
  refine ⟨mem_of_find?, fun hm => ?_⟩
  induction t with
  | nil => cases hm
  | cons e t ih =>
    obtain ⟨hnot, ht⟩ := List.nodup_cons.1 h
    rcases List.mem_cons.1 hm with rfl | hm
    · exact if_pos rfl
    · have hne : e.1 ≠ key := by
        rintro rfl
        exact hnot (List.mem_map.2 ⟨_, hm, rfl⟩)
      exact (if_neg hne).trans (ih ht hm)

/-- A table has all its entries under its keys. -/
theorem arrange_keys (h : t.keys.Nodup) : t.arrange t.keys = t := by
  unfold arrange keys
  rw [List.filterMap_map]
  refine (List.filterMap_congr fun e he => ?_).trans List.filterMap_some
  simp [(find?_eq_some_iff h).2 he]

theorem keys_eq_of_mem_iff {β : Type} {t' : Table β} (h : t.Ascending) (h' : t'.Ascending)
    (heq : ∀ key, key ∈ t.keys ↔ key ∈ t'.keys) : t.keys = t'.keys := by
  have hkeys : t.keys.Pairwise (· < ·) := List.pairwise_map.2 h
  have hkeys' : t'.keys.Pairwise (· < ·) := List.pairwise_map.2 h'
  have hperm := (List.perm_ext_iff_of_nodup h.nodup_keys h'.nodup_keys).2 heq
  exact hperm.eq_of_pairwise (fun _ _ _ _ hab hba => absurd hba (String.lt_asymm hab)) hkeys hkeys'

theorem ext (h : t.Ascending) (h' : t'.Ascending) (heq : ∀ key, t.find? key = t'.find? key) :
    t = t' := by
  have hkeys : t.keys = t'.keys := keys_eq_of_mem_iff h h' fun key => by
    rw [mem_keys_iff, mem_keys_iff, heq]
  calc t = t.arrange t.keys := (arrange_keys h.nodup_keys).symm
    _ = t'.arrange t'.keys := by simp only [arrange, heq, hkeys]
    _ = t' := arrange_keys h'.nodup_keys

end Table

theorem PairList.mem_putAll {α : Type} {ps qs : List (String × α)} {p : String × α}
    (h : p ∈ putAll ps qs) : p ∈ ps ∨ p ∈ qs := by
  unfold putAll at h
  induction qs generalizing ps with
  | nil => exact .inl h
  | cons q qs ih =>
    rw [List.foldl_cons] at h
    rcases ih h with h | h
    · unfold put replace at h
      split_ifs at h
      · obtain ⟨p', hp', rfl⟩ := List.mem_map.1 h
        split_ifs with hk
        · exact .inr (by simp [hk])
        · exact .inl hp'
      · rcases List.mem_append.1 h with h | h
        · exact .inl h
        · exact .inr (by simp [List.mem_singleton.1 h])
    · exact .inr (List.mem_cons_of_mem _ h)

theorem PairList.putAll_of_nodup {α : Type} {ps qs : List (String × α)}
    (h : ((ps ++ qs).map (·.1)).Nodup) : putAll ps qs = ps ++ qs := by
  unfold putAll
  induction qs generalizing ps with
  | nil => rw [List.foldl_nil, List.append_nil]
  | cons q qs ih =>
    have hq : q.1 ∉ ps.map (·.1) := by
      intro hm
      rw [List.map_append, List.map_cons] at h
      exact (List.nodup_append.1 h).2.2 q.1 hm q.1 List.mem_cons_self rfl
    have hput : put ps q.1 q.2 = ps ++ [q] := if_neg hq
    rw [List.foldl_cons, hput, ih]
    · rw [List.append_assoc, List.singleton_append]
    · rwa [List.append_assoc, List.singleton_append]

namespace OrderedMap

variable {α β : Type} {m m' : OrderedMap α}

theorem items_ofPairs_of_nodup {ps : List (String × α)} (h : (ps.map (·.1)).Nodup) :
    (ofPairs ps).items = ps := by
  rw [items_ofPairs]
  exact PairList.putAll_of_nodup h

theorem mem_of_mem_items_ofPairs {ps : List (String × α)} {p : String × α}
    (h : p ∈ (ofPairs ps).items) : p ∈ ps := by
  rw [items_ofPairs] at h
  rcases PairList.mem_putAll h with h | h
  · cases h
  · exact h

theorem mem_of_mem_values_ofPairs {ps : List (String × α)} {v : α}
    (h : v ∈ (ofPairs ps).values) : ∃ p ∈ ps, p.2 = v := by
  obtain ⟨key, hp⟩ := mem_values_iff.1 h
  exact ⟨_, mem_of_mem_items_ofPairs hp, rfl⟩

theorem extend_concat (m : OrderedMap α) (ps : List (String × α)) (p : String × α) :
    m.extend (ps ++ [p]) = (m.extend ps).set p.1 p.2 := by
  unfold extend
  rw [List.foldl_append]
  rfl

theorem lookup_reverse_concat (ps : List (String × α)) (p : String × α) (key : String) :
    (ps ++ [p]).reverse.lookup key = if p.1 = key then some p.2 else ps.reverse.lookup key := by
  rw [List.reverse_append, List.reverse_singleton, List.singleton_append, List.lookup_cons]
  by_cases h : p.1 = key
  · simp [h]
  · simp [h, beq_eq_false_iff_ne.2 (Ne.symm h)]

theorem get?_set (m : OrderedMap α) (key : String) (v : α) (k : String) :
    (m.set key v).get? k = if key = k then some v else m.get? k := by
  unfold set put
  split
  · exact Table.find?_insert _ _ _ _
  · exact Table.find?_insert _ _ _ _

theorem WellFormed.order_set {m : OrderedMap α} (h : m.WellFormed) (key : String) (v : α) :
    (m.set key v).order = m.order ++ if key ∈ m.order then [] else [key] := by
  have hmem := h.mem_order_iff_isSome key
  unfold OrderedMap.set OrderedMap.put
  rcases hk : m.get? key with _ | w
  · have hnot : key ∉ m.order := fun hm => by
      rw [hmem, hk] at hm
      cases hm
    rw [if_neg hnot]
  · rw [if_pos (hmem.2 (Option.isSome_of_eq_some hk)), List.append_nil]

/-- New keys come after the others, where they first came. -/
theorem WellFormed.order_extend (h : m.WellFormed) (ps : List (String × α)) :
    (m.extend ps).order = m.order ++ (ps.map (·.1)).eraseDups.filter (· ∉ m.order) := by
  induction ps using List.reverseRecOn with
  | nil => simp [OrderedMap.extend]
  | append_singleton ps p ih =>
    rw [extend_concat, (h.extend ps).order_set, ih, List.map_append, List.map_singleton,
      eraseDups_concat, List.filter_append, List.append_assoc]
    by_cases hm : p.1 ∈ m.order <;> by_cases hp : p.1 ∈ ps.map (·.1) <;> simp_all

/-- A key has its last value, and the one before if it is not written to. -/
theorem get?_extend (m : OrderedMap α) (ps : List (String × α)) (key : String) :
    (m.extend ps).get? key = (ps.reverse.lookup key).or (m.get? key) := by
  induction ps using List.reverseRecOn with
  | nil => rfl
  | append_singleton ps p ih =>
    rw [extend_concat, get?_set, ih, lookup_reverse_concat]
    split_ifs <;> rfl

theorem order_ofPairs (ps : List (String × α)) :
    (ofPairs ps).order = (ps.map (·.1)).eraseDups := by
  rw [ofPairs, wellFormed_empty.order_extend]
  simp [empty]

theorem get?_ofPairs (ps : List (String × α)) (key : String) :
    (ofPairs ps).get? key = ps.reverse.lookup key := by
  rw [ofPairs, get?_extend]
  exact Option.or_none

theorem table_ofPairs (ps : List (String × α)) : (ofPairs ps).table = Table.ofPairs ps := by
  induction ps using List.reverseRecOn with
  | nil => rfl
  | append_singleton ps p ih =>
    rw [Table.ofPairs, List.foldl_append, ← Table.ofPairs, ← ih, ofPairs, extend_concat, ← ofPairs,
      set, put]
    split <;> rfl

theorem WellFormed.ext_get? (h : m.WellFormed) (h' : m'.WellFormed) (horder : m.order = m'.order)
    (hget : ∀ key, m.get? key = m'.get? key) : m = m' := by
  have hentries : m.entries = m'.entries := Table.ext h.ascending_table h'.ascending_table hget
  obtain ⟨order, entries⟩ := m
  obtain ⟨order', entries'⟩ := m'
  exact congrArg₂ OrderedMap.mk horder hentries

theorem ext_items (h : m.WellFormed) (h' : m'.WellFormed) (heq : m.items = m'.items) : m = m' := by
  refine h.ext_get? h' ?_ fun key => ?_
  · rw [← h.keys_items, ← h'.keys_items, heq]
  · rw [← h.lookup_items, ← h'.lookup_items, heq]

/-- A map is the one that its pairs make. -/
theorem ofPairs_items (h : m.WellFormed) : ofPairs m.items = m := by
  refine ext_items (wellFormed_ofPairs _) h (items_ofPairs_of_nodup ?_)
  rw [h.keys_items]
  exact h.nodup_order

/-- Every value changed in its place. -/
def mapValues (f : α → β) (m : OrderedMap α) : OrderedMap β :=
  ⟨m.order, m.entries.map fun e => (e.1, f e.2)⟩

theorem items_mapValues (f : α → β) (m : OrderedMap α) :
    (m.mapValues f).items = m.items.map fun p => (p.1, f p.2) :=
  Table.arrange_map f m.entries m.order

theorem WellFormed.mapValues (h : m.WellFormed) (f : α → β) : (m.mapValues f).WellFormed := by
  have hkeys : (m.mapValues f).table.keys = m.table.keys := by
    unfold Table.keys OrderedMap.mapValues
    rw [List.map_map]
    rfl
  refine ⟨h.nodup_order, List.pairwise_map.2 h.ascending_table, fun key => ?_⟩
  rw [hkeys]
  exact h.mem_order_iff key

end OrderedMap

end TypedDoc

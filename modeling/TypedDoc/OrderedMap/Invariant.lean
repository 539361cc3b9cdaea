import TypedDoc.OrderedMap

/-!
# What every operation keeps

The two parts of an ordered map agree after every operation, whether it succeeds or fails: a key is
listed once, and it is listed exactly if it has a value. So every listed key can be looked up, and
the pairs of a map have the keys of its order.
-/

namespace TypedDoc.OrderedMap

variable {α β : Type} {m : OrderedMap α}

theorem wellFormed_empty : (empty : OrderedMap α).WellFormed :=
  ⟨.nil, .nil, fun _ => by simp [empty, table, Table.keys]⟩

namespace WellFormed

theorem mem_order_iff_isSome (h : m.WellFormed) (key : String) :
    key ∈ m.order ↔ (m.get? key).isSome :=
  (h.mem_order_iff key).trans (Table.mem_keys_iff _ _)

/-- The keys of the pairs are the listed keys, so no pair is missing. -/
theorem keys_items (h : m.WellFormed) : m.items.map (·.1) = m.order :=
  Table.keys_arrange fun k hk => (h.mem_order_iff k).1 hk

theorem length_items (h : m.WellFormed) : m.items.length = m.size := by
  rw [size, ← h.keys_items, List.length_map]

/-- A new value for a key that is present leaves the order as it is. -/
theorem overwrite (h : m.WellFormed) {key : String} (hk : (m.get? key).isSome) (value : α) :
    WellFormed { m with entries := m.table.insert key value } where
  nodup_order := h.nodup_order
  ascending_table := h.ascending_table.insert key value
  mem_order_iff k := by
    show k ∈ m.order ↔ k ∈ (m.table.insert key value).keys
    rw [Table.mem_keys_insert, h.mem_order_iff]
    refine ⟨.inr, fun hk' => hk'.elim ?_ id⟩
    rintro rfl
    exact (Table.mem_keys_iff _ _).2 hk

/-- A key that is absent goes to the end of the order. -/
theorem append (h : m.WellFormed) {key : String} (hk : m.get? key = none) (value : α) :
    WellFormed ⟨m.order ++ [key], m.table.insert key value⟩ where
  nodup_order := by
    refine List.nodup_append.2 ⟨h.nodup_order, List.pairwise_singleton _ _, ?_⟩
    rintro a ha b hb rfl
    obtain rfl := List.mem_singleton.1 hb
    have := (h.mem_order_iff_isSome a).1 ha
    rw [hk] at this
    cases this
  ascending_table := h.ascending_table.insert key value
  mem_order_iff k := by
    show k ∈ m.order ++ [key] ↔ k ∈ (m.table.insert key value).keys
    rw [Table.mem_keys_insert, List.mem_append, List.mem_singleton, h.mem_order_iff]
    exact or_comm

/-- A key that is taken out leaves the order of the others as it is. -/
theorem erase (h : m.WellFormed) (key : String) :
    WellFormed ⟨m.order.erase key, m.table.erase key⟩ where
  nodup_order := h.nodup_order.erase key
  ascending_table := h.ascending_table.erase key
  mem_order_iff k := by
    show k ∈ m.order.erase key ↔ k ∈ (m.table.erase key).keys
    rw [Table.mem_keys_erase h.ascending_table, h.nodup_order.mem_erase_iff, h.mem_order_iff]

theorem put (h : m.WellFormed) (key : String) (value : α) : (m.put key value).2.WellFormed := by
  unfold OrderedMap.put
  split
  · next old hk => exact h.overwrite (by rw [hk]; rfl) value
  · next hk => exact h.append hk value

theorem set (h : m.WellFormed) (key : String) (value : α) : (m.set key value).WellFormed :=
  h.put key value

theorem setDefault (h : m.WellFormed) (key : String) (default : α) :
    (m.setDefault key default).2.WellFormed := by
  unfold OrderedMap.setDefault
  split
  · exact h
  · next hk => exact h.append hk default

theorem modify (h : m.WellFormed) (key : String) (f : α → β × α) :
    (m.modify key f).2.WellFormed := by
  unfold OrderedMap.modify
  split
  · next value hk => exact h.overwrite (by rw [hk]; rfl) _
  · exact h

theorem remove? (h : m.WellFormed) (key : String) : (m.remove? key).2.WellFormed := by
  unfold OrderedMap.remove?
  split
  · exact h.erase key
  · exact h

theorem delete (h : m.WellFormed) (key : String) : (m.delete key).2.WellFormed := by
  have hr := h.remove? key
  unfold OrderedMap.delete
  split <;> simp_all

theorem popD (h : m.WellFormed) (key : String) (default : α) :
    (m.popD key default).2.WellFormed := by
  have hr := h.remove? key
  unfold OrderedMap.popD
  split <;> simp_all

theorem popWith (h : m.WellFormed) (key : String) (defaults : List α) :
    (m.popWith key defaults).2.WellFormed := by
  unfold OrderedMap.popWith
  split
  · exact h
  · exact h.popD key _
  · have hr := h.remove? key
    split <;> simp_all

theorem takeFirst (h : m.WellFormed) : m.takeFirst.2.WellFormed := by
  unfold OrderedMap.takeFirst
  split
  · exact h
  · next key rest hk =>
    have he := h.erase key
    rw [hk, List.erase_cons_head] at he
    exact he

theorem popItem (h : m.WellFormed) : m.popItem.2.WellFormed := by
  have ht := h.takeFirst
  unfold OrderedMap.popItem
  split <;> simp_all

theorem extend (h : m.WellFormed) (ps : List (String × α)) : (m.extend ps).WellFormed := by
  unfold OrderedMap.extend
  induction ps generalizing m with
  | nil => exact h
  | cons p ps ih => exact ih (h.set p.1 p.2)

end WellFormed

theorem wellFormed_ofPairs (ps : List (String × α)) : (ofPairs ps).WellFormed :=
  wellFormed_empty.extend ps

end TypedDoc.OrderedMap

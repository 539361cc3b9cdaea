import TypedDoc.OrderedMap.Cursor
import TypedDoc.OrderedMap.Invariant
import TypedDoc.Proofs.Program

/-!
# The two parts of a document agree

Whatever a program does, and whether its calls succeed or fail, the two parts of each of its
documents agree (`wellFormed_run`): no key is listed twice, and the listed keys are those of the
table. So every key that a document or an iterator over it takes from the order has a value, and
no look-up of a listed key can fail (`run_agrees`).
-/

namespace TypedDoc

theorem Maker.wellFormed_run {maker : Maker} {d : Document} (h : maker.run = .ok d) :
    d.WellFormed := by
  cases maker with
  | empty =>
    obtain rfl := Except.ok.inj h
    exact OrderedMap.wellFormed_empty
  | ofPairs ps =>
    obtain rfl := Except.ok.inj h
    exact OrderedMap.wellFormed_ofPairs ps
  | ofMapping m =>
    simp only [run, Document.ofMapping] at h
    rcases hp : m.pairs with e | ps <;> rw [hp] at h
    · simp [Except.map] at h
    · obtain rfl := Except.ok.inj h
      exact OrderedMap.wellFormed_ofPairs ps

theorem Document.wellFormed_update {d : Document} (h : d.WellFormed) (source : Source) :
    (d.update source).2.WellFormed := by
  unfold Document.update
  split
  · exact h.extend _
  · exact h

theorem Document.wellFormed_updateWith {d : Document} (h : d.WellFormed) (source : Option Source)
    (overrides : List (String × Value)) : (d.updateWith source overrides).2.WellFormed := by
  unfold Document.updateWith
  rcases source with _ | source
  · exact h.extend overrides
  · have hu := Document.wellFormed_update h source
    rcases hs : d.update source with ⟨e | _, d'⟩ <;> rw [hs] at hu <;>
      simp only [Option.map_some, hs]
    · exact hu
    · exact OrderedMap.WellFormed.extend hu overrides

theorem Operation.wellFormed_run {d : Document} (h : d.WellFormed) (op : Operation) :
    (op.run d).2.WellFormed := by
  cases op with
  | set key value => exact h.put key value
  | setDefault key default write => exact (h.setDefault key default).modify key _
  | modify key write => exact h.modify key fun v => (v, write v)
  | delete key => exact h.delete key
  | pop key => exact h.popWith key []
  | popD key default => exact h.popD key default
  | popWith key defaults => exact h.popWith key defaults
  | popItem => exact h.popItem
  | clear => exact OrderedMap.wellFormed_empty
  | extend ps => exact h.extend ps
  | update source => exact Document.wellFormed_update h source
  | updateWith source overrides => exact Document.wellFormed_updateWith h source overrides
  | next => exact h.takeFirst
  | size | isEmpty | contains | get? | getD | get | keys | values | items => exact h

/-- The two parts of every document of a program agree. -/
theorem wellFormed_run (as : List Action) (i : Nat) :
    OrderedMap.WellFormed ((Representation.documents.run as).2 i) :=
  Representation.run_induct (R := .documents) (P := OrderedMap.WellFormed)
    OrderedMap.wellFormed_empty (fun _ _ h => Maker.wellFormed_run h)
    (fun _ op h => Operation.wellFormed_run h op) as i

theorem Table.mem_of_find? {α : Type} {t : Table α} {key : String} {v : α}
    (h : t.find? key = some v) : (key, v) ∈ t := by
  induction t with
  | nil => simp [find?] at h
  | cons e t ih =>
    obtain ⟨k, w⟩ := e
    simp only [find?] at h
    split_ifs at h with hk
    · obtain rfl := Option.some.inj h
      rw [hk]
      exact List.mem_cons_self
    · exact List.mem_cons_of_mem _ (ih h)

theorem Table.Ascending.nodup_keys {α : Type} {t : Table α} (h : t.Ascending) : t.keys.Nodup :=
  List.pairwise_map.2 (List.Pairwise.imp (fun hlt => String.ne_of_lt hlt) h)

namespace OrderedMap

variable {α : Type} {m : OrderedMap α}

namespace WellFormed

theorem nodup_keys (h : m.WellFormed) : m.table.keys.Nodup := h.ascending_table.nodup_keys

theorem size_eq_length_entries (h : m.WellFormed) : m.size = m.entries.length := by
  have hperm : m.order.Perm m.table.keys :=
    (List.perm_ext_iff_of_nodup h.nodup_order h.nodup_keys).2 h.mem_order_iff
  rw [size, hperm.length_eq, Table.keys, List.length_map]

theorem get?_of_mem (h : m.WellFormed) {key : String} (hk : key ∈ m.order) :
    ∃ v, m.get? key = some v :=
  Option.isSome_iff_exists.1 ((h.mem_order_iff_isSome key).1 hk)

/-- The key that is taken from the front of the order is still in the table. -/
theorem takeFirst_cons (h : m.WellFormed) {key : String} {rest : List String}
    (ho : m.order = key :: rest) :
    ∃ v, m.get? key = some v ∧ m.takeFirst = (some (key, v), ⟨rest, m.table.erase key⟩) := by
  have hk : key ∈ m.order := ho ▸ List.mem_cons_self
  obtain ⟨v, hv⟩ := h.get?_of_mem hk
  refine ⟨v, hv, ?_⟩
  unfold OrderedMap.takeFirst
  rw [ho]
  simp only [hv, Option.map_some]

end WellFormed

namespace Cursor

/-- The cursor after a step from the front or from the back. -/
def move (c : Cursor α) (back : Bool) : Cursor α := if back then c.nextBack.2 else c.next.2

theorem table_move (c : Cursor α) (back : Bool) : (c.move back).table = c.table := by
  unfold move
  split
  · unfold nextBack
    split <;> rfl
  · unfold next
    split <;> rfl

theorem ahead_move_sublist (c : Cursor α) (back : Bool) :
    (c.move back).ahead.Sublist c.ahead := by
  unfold move
  split
  · unfold nextBack
    split
    · exact List.Sublist.refl _
    · exact List.dropLast_sublist _
  · unfold next
    split
    · exact List.Sublist.refl _
    · rename_i key rest hk
      rw [hk]
      exact List.sublist_cons_self key rest

theorem moves_keep (moves : List Bool) (c : Cursor α) :
    (moves.foldl move c).table = c.table ∧ (moves.foldl move c).ahead.Sublist c.ahead := by
  induction moves generalizing c with
  | nil => exact ⟨rfl, List.Sublist.refl _⟩
  | cons back moves ih =>
    obtain ⟨ht, ha⟩ := ih (c.move back)
    exact ⟨ht.trans (c.table_move back), ha.trans (c.ahead_move_sublist back)⟩

/-- A cursor whose keys all have values gives a pair from either end while a key is ahead. -/
theorem isSome_of_ahead {c : Cursor α} (hc : ∀ key ∈ c.ahead, ∃ v, c.table.find? key = some v)
    (hne : c.ahead ≠ []) : c.next.1.isSome ∧ c.nextBack.1.isSome := by
  refine ⟨?_, ?_⟩
  · obtain ⟨key, rest, hk⟩ := List.exists_cons_of_ne_nil hne
    obtain ⟨v, hv⟩ := hc key (hk ▸ List.mem_cons_self)
    simp only [next, hk, hv, Option.map_some, Option.isSome_some]
  · obtain ⟨v, hv⟩ := hc _ (List.getLast_mem hne)
    simp only [nextBack, List.getLast?_eq_some_getLast hne, hv, Option.map_some,
      Option.isSome_some]

end Cursor

end OrderedMap

open OrderedMap in
/-- After any program, each document, also one that its iterator has taken pairs from, lists every
key of its table once and no others. So it has as many entries as its size says, the first key
that it takes out has a value, and so has every key that a look-up or a cursor moved from either
end in any way takes from the order. -/
theorem run_agrees (as : List Action) (i : Nat) :
    let d : Document := (Representation.documents.run as).2 i
    (d.order.Nodup ∧ (d.entries.map (·.1)).Nodup ∧ ∀ key, key ∈ d.order ↔ ∃ v, (key, v) ∈ d.entries)
      ∧ d.size = d.entries.length
      ∧ (∀ key rest, d.order = key :: rest → ∃ v, (key, v) ∈ d.entries
        ∧ d.popItem = (.ok (key, v), ⟨rest, d.table.erase key⟩)
        ∧ d.takeFirst = (some (key, v), ⟨rest, d.table.erase key⟩))
      ∧ (∀ key ∈ d.order, ∃ v, d.get? key = some v) ∧ d.values.length = d.size
      ∧ ∀ moves : List Bool, (moves.foldl Cursor.move d.cursor).ahead ≠ [] →
        (moves.foldl Cursor.move d.cursor).next.1.isSome
          ∧ (moves.foldl Cursor.move d.cursor).nextBack.1.isSome := by
  intro d
  have h : d.WellFormed := wellFormed_run as i
  refine ⟨⟨h.nodup_order, h.nodup_keys, fun key => ?_⟩, h.size_eq_length_entries,
    fun key rest ho => ?_, fun key hk => h.get?_of_mem hk, ?_, fun moves hne => ?_⟩
  · rw [h.mem_order_iff, Table.keys, List.mem_map]
    refine ⟨?_, ?_⟩
    · rintro ⟨⟨_, v⟩, he, rfl⟩
      exact ⟨v, he⟩
    · rintro ⟨v, hv⟩
      exact ⟨(key, v), hv, rfl⟩
  · obtain ⟨v, hv, ht⟩ := h.takeFirst_cons ho
    refine ⟨v, Table.mem_of_find? hv, ?_, ht⟩
    unfold popItem
    rw [ht]
  · rw [values, List.length_map, h.length_items]
  · obtain ⟨ht, ha⟩ := Cursor.moves_keep moves d.cursor
    refine Cursor.isSome_of_ahead (fun key hk => ?_) hne
    rw [ht]
    exact h.get?_of_mem (ha.subset hk)

end TypedDoc

import TypedDoc.Proofs.Agreement

/-!
# Documents as lists of pairs

What a document shows is the list of its pairs, and nothing else about it can be seen. Each
operation is said again on such lists (`Operation.onPairs`), without a table: a value is replaced
where it stands, a new key comes at the end, and a key that is taken out leaves the others in their
order. A program gives the same answers and ends with the same pairs, whether it runs on documents
or on lists (`run_documents_pairs`).
-/

namespace TypedDoc

namespace PairList

variable {α : Type}

def replace (ps : List (String × α)) (key : String) (f : α → α) : List (String × α) :=
  ps.map fun p => if p.1 = key then (p.1, f p.2) else p

def add (ps : List (String × α)) (key : String) (value : α) : List (String × α) :=
  if key ∈ ps.map (·.1) then ps else ps ++ [(key, value)]

def put (ps : List (String × α)) (key : String) (value : α) : List (String × α) :=
  if key ∈ ps.map (·.1) then replace ps key fun _ => value else ps ++ [(key, value)]

def putAll (ps qs : List (String × α)) : List (String × α) :=
  qs.foldl (fun ps q => put ps q.1 q.2) ps

def remove (ps : List (String × α)) (key : String) : List (String × α) :=
  ps.filter fun p => p.1 ≠ key

end PairList

open PairList

/-- The answer of an operation on a list of pairs, and the pairs after it. -/
def Operation.onPairs (ps : List (String × Value)) : Operation → Answer × List (String × Value)
  | set key value => (.found (ps.lookup key), put ps key value)
  | setDefault key default write =>
    (.value (.ok ((ps.lookup key).getD default)), replace (add ps key default) key write)
  | modify key write => (.found (ps.lookup key), replace ps key write)
  | delete key =>
    if key ∈ ps.map (·.1) then (.done (.ok ()), remove ps key)
    else (.done (.error (.keyNotFound key)), ps)
  | pop key => popped key (.error (.keyNotFound key))
  | popD key default => popped key (.ok default)
  | popWith key [] => popped key (.error (.keyNotFound key))
  | popWith key [default] => popped key (.ok default)
  | popWith _ defaults => (.value (.error (.argument (.tooManyDefaults defaults.length))), ps)
  | popItem =>
    match ps with
    | [] => (.pair (.error .emptyContainer), [])
    | p :: ps => (.pair (.ok p), ps)
  | clear => (.done (.ok ()), [])
  | extend qs => (.done (.ok ()), putAll ps qs)
  | update source => updated source []
  | updateWith none overrides => (.done (.ok ()), putAll ps overrides)
  | updateWith (some source) overrides => updated source overrides
  | next =>
    match ps with
    | [] => (.first none, [])
    | p :: ps => (.first (some p), ps)
  | size => (.size ps.length, ps)
  | isEmpty => (.truth ps.isEmpty, ps)
  | contains key => (.truth (key ∈ ps.map (·.1)), ps)
  | get? key => (.found (ps.lookup key), ps)
  | getD key default => (.value (.ok ((ps.lookup key).getD default)), ps)
  | get key =>
    match ps.lookup key with
    | some v => (.value (.ok v), ps)
    | none => (.value (.error (.keyNotFound key)), ps)
  | keys => (.keys (ps.map (·.1)), ps)
  | values => (.values (ps.map (·.2)), ps)
  | items => (.items ps, ps)
where
  popped (key : String) (absent : Except Error Value) : Answer × List (String × Value) :=
    match ps.lookup key with
    | some v => (.value (.ok v), remove ps key)
    | none => (.value absent, ps)
  updated (source : Source) (overrides : List (String × Value)) :
      Answer × List (String × Value) :=
    match source.toPairs with
    | .ok qs => (.done (.ok ()), putAll (putAll ps qs) overrides)
    | .error e => (.done (.error e), ps)

def Maker.onPairs : Maker → Except Error (List (String × Value))
  | empty => .ok []
  | ofPairs ps => .ok (putAll [] ps)
  | ofMapping m => m.pairs.map (putAll [])

/-- Documents as the lists of their pairs. -/
def Representation.pairs : Representation :=
  ⟨List (String × Value), [], Maker.onPairs, Operation.onPairs⟩

/-! ## The pairs that a table has for some keys -/

namespace Table

variable {α : Type} {t : Table α}

theorem lookup_arrange (t : Table α) (key : String) (order : List String) :
    (t.arrange order).lookup key = if key ∈ order then t.find? key else none := by
  induction order with
  | nil => rfl
  | cons k order ih =>
    simp only [arrange, List.filterMap_cons] at ih ⊢
    rcases hv : t.find? k with _ | v <;> simp only [Option.map_none, Option.map_some]
    · rw [ih]
      by_cases hk : key = k
      · subst hk
        simp [hv]
      · simp [hk]
    · rw [List.lookup_cons, ih]
      by_cases hk : key = k
      · subst hk
        simp [hv]
      · simp [hk, beq_eq_false_iff_ne.2 hk]

theorem arrange_insert {key : String} {old : α} (hk : t.find? key = some old) (f : α → α)
    (order : List String) :
    (t.insert key (f old)).arrange order = replace (t.arrange order) key f := by
  unfold arrange replace
  rw [List.map_filterMap]
  refine congrArg (List.filterMap · order) (funext fun k => ?_)
  rw [find?_insert]
  by_cases h : key = k
  · subst h
    simp [hk]
  · rw [if_neg h]
    rcases t.find? k with _ | v
    · rfl
    · simp [Ne.symm h]

theorem arrange_insert_append {key : String} {order : List String} (hk : key ∉ order) (v : α) :
    (t.insert key v).arrange (order ++ [key]) = t.arrange order ++ [(key, v)] := by
  unfold arrange
  rw [List.filterMap_append]
  congr 1
  · refine List.filterMap_congr fun k hk' => ?_
    rw [find?_insert, if_neg]
    rintro rfl
    exact hk hk'
  · simp [find?_insert]

theorem arrange_erase (h : t.Ascending) {order : List String} (ho : order.Nodup) (key : String) :
    (t.erase key).arrange (order.erase key) = remove (t.arrange order) key := by
  unfold arrange remove
  rw [ho.erase_eq_filter, List.filterMap_filter, List.filter_filterMap]
  refine congrArg (List.filterMap · order) (funext fun k => ?_)
  rw [find?_erase h]
  by_cases hk : k = key
  · subst hk
    rcases t.find? k with _ | v <;> simp [Option.filter]
  · rcases t.find? k with _ | v <;> simp [Option.filter, hk, Ne.symm hk]

theorem arrange_erase_of_not_mem (h : t.Ascending) {key : String} {order : List String}
    (hk : key ∉ order) : (t.erase key).arrange order = t.arrange order := by
  refine List.filterMap_congr fun k hk' => ?_
  rw [find?_erase h, if_neg]
  rintro rfl
  exact hk hk'

end Table

/-! ## What an operation does to the pairs -/

namespace PairList

variable {α : Type} {ps : List (String × α)} {key : String}

theorem replace_of_not_mem (h : key ∉ ps.map (·.1)) (f : α → α) : replace ps key f = ps := by
  unfold replace
  refine (List.map_congr_left fun p hp => ?_).trans (List.map_id ps)
  rw [if_neg]
  · rfl
  · rintro rfl
    exact h (List.mem_map_of_mem hp)

theorem keys_replace (ps : List (String × α)) (key : String) (f : α → α) :
    (replace ps key f).map (·.1) = ps.map (·.1) := by
  unfold replace
  rw [List.map_map]
  refine List.map_congr_left fun p _ => ?_
  simp only [Function.comp_apply]
  split <;> rfl

theorem mem_keys_put {k : String} (ps : List (String × α)) (key : String) (v : α) :
    k ∈ (put ps key v).map (·.1) ↔ k ∈ ps.map (·.1) ∨ k = key := by
  unfold put
  split_ifs with h
  · rw [keys_replace]
    refine ⟨.inl, ?_⟩
    rintro (hk | rfl)
    · exact hk
    · exact h
  · rw [List.map_append, List.mem_append, List.map_singleton, List.mem_singleton]

theorem mem_keys_putAll {k : String} (ps qs : List (String × α)) :
    k ∈ (putAll ps qs).map (·.1) ↔ k ∈ ps.map (·.1) ∨ k ∈ qs.map (·.1) := by
  unfold putAll
  induction qs generalizing ps with
  | nil => simp
  | cons q qs ih =>
    rw [List.foldl_cons, ih, mem_keys_put, List.map_cons, List.mem_cons, or_assoc]

end PairList

namespace OrderedMap.WellFormed

variable {α : Type} {m : OrderedMap α}

theorem lookup_items (h : m.WellFormed) (key : String) : m.items.lookup key = m.get? key := by
  rw [items, Table.lookup_arrange]
  split
  · rfl
  · rename_i hk
    rw [h.mem_order_iff_isSome] at hk
    exact (Option.not_isSome_iff_eq_none.1 hk).symm

theorem mem_keys_items (h : m.WellFormed) (key : String) :
    key ∈ m.items.map (·.1) ↔ (m.get? key).isSome := by
  rw [h.keys_items, h.mem_order_iff_isSome]

theorem items_overwrite {key : String} {old : α} (hk : m.get? key = some old) (f : α → α) :
    OrderedMap.items { m with entries := m.table.insert key (f old) } = replace m.items key f :=
  Table.arrange_insert hk f m.order

theorem items_append (h : m.WellFormed) {key : String} (hk : m.get? key = none) (v : α) :
    OrderedMap.items ⟨m.order ++ [key], m.table.insert key v⟩ = m.items ++ [(key, v)] := by
  refine Table.arrange_insert_append (fun hm => ?_) v
  rw [h.mem_order_iff_isSome, hk] at hm
  cases hm

theorem put_eq (h : m.WellFormed) (key : String) (v : α) :
    (m.put key v).1 = m.items.lookup key ∧ (m.put key v).2.items = PairList.put m.items key v := by
  simp only [OrderedMap.put, PairList.put, h.mem_keys_items, h.lookup_items]
  rcases hk : m.get? key with _ | old
  · exact ⟨rfl, h.items_append hk v⟩
  · exact ⟨rfl, items_overwrite hk fun _ => v⟩

theorem items_set (h : m.WellFormed) (key : String) (v : α) :
    (m.set key v).items = PairList.put m.items key v := (h.put_eq key v).2

theorem setDefault_eq (h : m.WellFormed) (key : String) (v : α) :
    (m.setDefault key v).1 = (m.items.lookup key).getD v
      ∧ (m.setDefault key v).2.items = add m.items key v := by
  simp only [OrderedMap.setDefault, add, h.mem_keys_items, h.lookup_items]
  rcases hk : m.get? key with _ | old
  · exact ⟨rfl, h.items_append hk v⟩
  · exact ⟨rfl, rfl⟩

theorem modify_eq (h : m.WellFormed) (key : String) (f : α → α) :
    (m.modify key fun v => (v, f v)).1 = m.items.lookup key
      ∧ (m.modify key fun v => (v, f v)).2.items = replace m.items key f := by
  rw [h.lookup_items, OrderedMap.modify]
  rcases hk : m.get? key with _ | old
  · refine ⟨rfl, (replace_of_not_mem (fun hm => ?_) f).symm⟩
    rw [h.mem_keys_items, hk] at hm
    cases hm
  · exact ⟨rfl, items_overwrite hk f⟩

theorem remove?_cases (h : m.WellFormed) (key : String) :
    (∃ v m', m.remove? key = (some v, m') ∧ m.items.lookup key = some v
        ∧ m'.items = PairList.remove m.items key)
      ∨ m.remove? key = (none, m) ∧ m.items.lookup key = none := by
  rw [h.lookup_items, OrderedMap.remove?]
  rcases hk : m.get? key with _ | v
  · exact .inr ⟨rfl, rfl⟩
  · exact .inl ⟨v, _, rfl, rfl, Table.arrange_erase h.ascending_table h.nodup_order key⟩

theorem takeFirst_cases (h : m.WellFormed) :
    (m.takeFirst = (none, m) ∧ m.items = [])
      ∨ ∃ p m', m.takeFirst = (some p, m') ∧ m.items = p :: m'.items := by
  rcases ho : m.order with _ | ⟨key, rest⟩
  · refine .inl ⟨?_, ?_⟩
    · rw [OrderedMap.takeFirst, ho]
    · rw [items, ho]
      rfl
  · obtain ⟨v, hv, ht⟩ := h.takeFirst_cons ho
    refine .inr ⟨_, _, ht, ?_⟩
    have hd := h.nodup_order
    rw [ho] at hd
    have hr : OrderedMap.items ⟨rest, m.table.erase key⟩ = m.table.arrange rest :=
      Table.arrange_erase_of_not_mem h.ascending_table (List.nodup_cons.1 hd).1
    rw [hr, items, ho, Table.arrange, List.filterMap_cons,
      show m.table.find? key = some v from hv]
    rfl

theorem items_extend (h : m.WellFormed) (qs : List (String × α)) :
    (m.extend qs).items = putAll m.items qs := by
  unfold OrderedMap.extend putAll
  induction qs generalizing m with
  | nil => rfl
  | cons q qs ih =>
    rw [List.foldl_cons, List.foldl_cons, ih (h.set q.1 q.2), h.items_set]

end OrderedMap.WellFormed

/-! ## Programs -/

/-- What a list of pairs shows of a document and an answer. -/
def shown (r : Answer × Document) : Answer × List (String × Value) := (r.1, r.2.items)

namespace Operation

variable {d : Document}

theorem shown_popWith_nil (h : d.WellFormed) (key : String) :
    shown (run d (popWith key [])) = onPairs.popped d.items key (.error (.keyNotFound key)) := by
  unfold onPairs.popped
  rcases h.remove?_cases key with ⟨v, d', hr, hl, hi⟩ | ⟨hr, hl⟩
  · simp only [run, shown, OrderedMap.popWith, hr, hl, hi, Prod.map, id]
  · simp only [run, shown, OrderedMap.popWith, hr, hl, Prod.map, id]

theorem shown_popD (h : d.WellFormed) (key : String) (default : Value) :
    shown (run d (popD key default)) = onPairs.popped d.items key (.ok default) := by
  unfold onPairs.popped
  rcases h.remove?_cases key with ⟨v, d', hr, hl, hi⟩ | ⟨hr, hl⟩
  · simp only [run, shown, OrderedMap.popD, hr, hl, hi, Prod.map, id, Function.comp_apply]
  · simp only [run, shown, OrderedMap.popD, hr, hl, Prod.map, id, Function.comp_apply]

theorem shown_updateWith (h : d.WellFormed) (source : Source)
    (overrides : List (String × Value)) :
    shown (run d (updateWith (some source) overrides))
      = onPairs.updated d.items source overrides := by
  unfold onPairs.updated
  simp only [run, shown, Document.updateWith, Document.update, Option.map_some]
  rcases hs : source.toPairs with e | qs <;> simp only [Prod.map, id]
  rw [(h.extend qs).items_extend, h.items_extend]

/-- An operation on a document answers and changes the pairs as it does on the pairs alone. -/
theorem shown_run (h : d.WellFormed) (op : Operation) : shown (run d op) = onPairs d.items op := by
  cases op with
  | set key value =>
    obtain ⟨ha, hi⟩ := h.put_eq key value
    simp only [run, shown, onPairs, Prod.map, id, ha, hi]
  | setDefault key default write =>
    obtain ⟨ha, hi⟩ := h.setDefault_eq key default
    have hm := ((h.setDefault key default).modify_eq key write).2
    simp only [run, shown, onPairs, ha, hm, hi]
  | modify key write =>
    obtain ⟨ha, hi⟩ := h.modify_eq key write
    simp only [run, shown, onPairs, Prod.map, id, ha, hi]
  | delete key =>
    have hm := h.mem_keys_items key
    rw [← h.lookup_items] at hm
    rcases h.remove?_cases key with ⟨v, d', hr, hl, hi⟩ | ⟨hr, hl⟩ <;> rw [hl] at hm
    · simp only [run, shown, OrderedMap.delete, onPairs, hr, hi, Prod.map, id, if_pos (hm.2 rfl)]
    · have hno : key ∉ d.items.map (·.1) := fun hk => by cases hm.1 hk
      simp only [run, shown, OrderedMap.delete, onPairs, hr, Prod.map, id, if_neg hno]
  | pop key => exact shown_popWith_nil h key
  | popD key default => exact shown_popD h key default
  | popWith key defaults =>
    rcases defaults with _ | ⟨v, _ | ⟨w, vs⟩⟩
    · exact shown_popWith_nil h key
    · exact shown_popD h key v
    · rfl
  | popItem =>
    rcases h.takeFirst_cases with ⟨ht, hi⟩ | ⟨p, d', ht, hi⟩ <;>
      simp only [run, shown, OrderedMap.popItem, ht, onPairs, hi, Prod.map, id]
  | clear => rfl
  | extend qs => simp only [run, shown, onPairs, h.items_extend]
  | update source =>
    simp only [run, shown, Document.update, onPairs, onPairs.updated]
    rcases hs : source.toPairs with e | qs <;> simp only [Prod.map, id]
    rw [h.items_extend]
    rfl
  | updateWith source overrides =>
    rcases source with _ | source
    · simp only [run, shown, Document.updateWith, onPairs, Option.map_none, Prod.map, id,
        h.items_extend]
    · exact shown_updateWith h source overrides
  | next =>
    rcases h.takeFirst_cases with ⟨ht, hi⟩ | ⟨p, d', ht, hi⟩ <;>
      simp only [run, shown, ht, onPairs, hi, Prod.map, id]
  | size => simp only [run, shown, onPairs, h.length_items]
  | isEmpty =>
    have he : d.isEmpty = d.items.isEmpty := by
      rw [OrderedMap.isEmpty, ← h.keys_items, List.isEmpty_map]
    simp only [run, shown, onPairs, he]
  | contains key =>
    have hc : d.contains key = decide (key ∈ d.items.map (·.1)) := by
      rw [Bool.eq_iff_iff, decide_eq_true_iff, h.mem_keys_items]
      rfl
    simp only [run, shown, onPairs, hc]
  | get? key => simp only [run, shown, onPairs, h.lookup_items]
  | getD key default => simp only [run, shown, onPairs, h.lookup_items, OrderedMap.getD]
  | get key =>
    simp only [run, shown, OrderedMap.get, onPairs, h.lookup_items]
    rcases d.get? key with _ | v <;> rfl
  | keys => simp only [run, shown, onPairs, h.keys_items, OrderedMap.keys]
  | values => rfl
  | items => rfl

end Operation

theorem OrderedMap.items_ofPairs {α : Type} (ps : List (String × α)) :
    (OrderedMap.ofPairs ps).items = putAll [] ps :=
  OrderedMap.wellFormed_empty.items_extend ps

/-- The pairs that a maker starts with. -/
theorem Maker.onPairs_eq (maker : Maker) :
    maker.onPairs = maker.run.map OrderedMap.items := by
  cases maker with
  | empty => rfl
  | ofPairs ps => simp only [onPairs, run, Except.map, OrderedMap.items_ofPairs]
  | ofMapping m =>
    simp only [onPairs, run, Document.ofMapping]
    rcases m.pairs with e | ps <;> simp only [Except.map, OrderedMap.items_ofPairs]

theorem documents_simulates_pairs :
    Representation.Simulates (R := .documents) (T := .pairs)
      fun d ps => OrderedMap.WellFormed d ∧ OrderedMap.items d = ps := by
  refine ⟨⟨OrderedMap.wellFormed_empty, rfl⟩, fun maker => ?_, ?_⟩
  · have hm := maker.onPairs_eq
    rcases hr : maker.run with e | d <;> rw [hr] at hm
    · exact .inl ⟨e, hr, hm⟩
    · exact .inr ⟨d, d.items, hr, hm, Maker.wellFormed_run hr, rfl⟩
  · rintro d _ op ⟨h, rfl⟩
    have hs := Operation.shown_run h op
    exact ⟨congrArg Prod.fst hs, Operation.wellFormed_run h op, congrArg Prod.snd hs⟩

/-- A program gives the same answers on documents as on lists of pairs, and each document shows the
pairs of its list at the end; and whatever is then called on it gives the answer and leaves the
pairs that the operation on the list does. -/
theorem run_documents_pairs (as : List Action) :
    (Representation.documents.run as).1 = (Representation.pairs.run as).1
      ∧ ∀ i, let d : Document := (Representation.documents.run as).2 i
        d.items = (Representation.pairs.run as).2 i ∧ (d.items.map (·.1)).Nodup
          ∧ ∀ op : Operation, (op.run d).1 = (op.onPairs d.items).1
            ∧ (op.run d).2.items = (op.onPairs d.items).2 := by
  obtain ⟨ha, hd⟩ := Representation.run_rel documents_simulates_pairs as
  refine ⟨ha, fun i => ⟨(hd i).2, ?_, fun op => ?_⟩⟩
  · rw [(hd i).1.keys_items]
    exact (hd i).1.nodup_order
  · have hs := Operation.shown_run (hd i).1 op
    exact ⟨congrArg Prod.fst hs, congrArg Prod.snd hs⟩

end TypedDoc

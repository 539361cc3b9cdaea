import TypedDoc.Proofs.Bounds

/-!
# What an array holds

An array is made in two passes. The first one writes the children to a document, which keeps each
name where it first came, with its last value. The second one goes through these pairs and writes
each value at the position that its name denotes. After any part of that pass the array is as long
as the positions so far require, and a position holds the value of the last pair for it, or null
(`Dense.built`). Both passes together are `Dense.Filled`, which speaks of the children only.
-/

namespace TypedDoc

namespace Decode

namespace Dense

open Numeral.Integer

variable {limit : Nat} {items : Array Value} {qs : List (String × Value)}

theorem size_padded {i : Nat} (h : items.size ≤ i) :
    (items ++ Array.replicate (i - items.size) Value.null).size = i := by
  rw [Array.size_append, Array.size_replicate]
  omega

theorem getD_place (items : Array Value) (i j : Nat) (v : Value) :
    (place items i v)[j]?.getD .null = if i = j then v else items[j]?.getD .null := by
  unfold place
  split
  · rename_i hi
    rw [Array.getElem?_set]
    split_ifs
    · rfl
    · rfl
  · rename_i hi
    rw [Array.getElem?_push, size_padded (Nat.not_lt.1 hi)]
    by_cases hij : i = j
    · rw [if_pos hij.symm, if_pos hij]
      rfl
    · rw [if_neg (Ne.symm hij), if_neg hij, Array.getElem?_append]
      split_ifs with hj
      · rfl
      · rw [Array.getElem?_eq_none (Nat.not_lt.1 hj), Array.getElem?_replicate]
        split_ifs
        · rfl
        · rfl

/-- The array with room for a position. -/
def room (items : Array Value) (i : Nat) : Array Value :=
  if i < items.size then items else items ++ Array.replicate (i + 1 - items.size) Value.null

theorem lt_size_room (items : Array Value) (i : Nat) : i < (room items i).size := by
  unfold room
  split_ifs with h
  · exact h
  · rw [Array.size_append, Array.size_replicate]
    omega

/-- Growing first and then writing within the bounds. -/
theorem place_eq_set (items : Array Value) (i : Nat) (v : Value) :
    place items i v = (room items i).set i v (lt_size_room items i) := by
  by_cases h : i < items.size
  · simp only [place, room, h, dif_pos, if_true]
  · have hroom : room items i =
        (items ++ Array.replicate (i - items.size) Value.null).push .null := by
      rw [room, if_neg h, Array.push_append, ← Array.replicate_succ]
      congr 2
      omega
    simp only [place, h, dif_neg, not_false_eq_true, hroom, Array.set_push,
      size_padded (Nat.not_lt.1 h), Nat.lt_irrefl]

/-- The value of the last pair for a position, and null if there is none. -/
def latest (qs : List (String × Value)) (i : Nat) : Value :=
  ((qs.reverse.find? fun q => readIndex? q.1.toList = some i).map (·.2)).getD .null

theorem latest_concat (qs : List (String × Value)) (q : String × Value) (i : Nat) :
    latest (qs ++ [q]) i = if readIndex? q.1.toList = some i then q.2 else latest qs i := by
  unfold latest
  rw [List.reverse_append, List.reverse_singleton, List.singleton_append, List.find?_cons]
  by_cases h : readIndex? q.1.toList = some i
  · simp [h]
  · simp [h]

theorem latest_eq_null {i : Nat} (h : ∀ q ∈ qs, ¬ IsPosition q.1 i) : latest qs i = .null := by
  have hnone : (qs.reverse.find? fun q => readIndex? q.1.toList = some i) = none := by
    refine List.find?_eq_none.2 fun q hq => ?_
    rw [decide_eq_true_iff, readIndex?_eq_some_iff]
    exact h q (List.mem_reverse.1 hq)
  rw [latest, hnone]
  rfl

theorem latest_append_cons {before after : List (String × Value)} {q : String × Value} {i : Nat}
    (hq : IsPosition q.1 i) (h : ∀ p ∈ after, ¬ IsPosition p.1 i) :
    latest (before ++ q :: after) i = q.2 := by
  induction after using List.reverseRecOn with
  | nil => rw [latest_concat, if_pos (readIndex?_eq_some_iff.2 hq)]
  | append_singleton after p ih =>
    rw [← List.cons_append, ← List.append_assoc, latest_concat, if_neg, ih]
    · exact fun p hp => h p (List.mem_append_left _ hp)
    · rw [readIndex?_eq_some_iff]
      exact h p (by simp)

theorem built (h : qs.foldlM (step limit) #[] = .ok items) :
    (∀ n, items.size ≤ n ↔ ∀ k ∈ qs.map (·.1), ∀ i, IsPosition k i → i < n)
      ∧ ∀ i, items[i]?.getD .null = latest qs i := by
  -- from the last pair back, since it is the last one that counts
  induction qs using List.reverseRecOn generalizing items with
  | nil =>
    obtain rfl := Except.ok.inj h
    exact ⟨fun n => by simp, fun i => rfl⟩
  | append_singleton qs q ih =>
    rw [List.foldlM_append, bind_eq_ok_iff] at h
    obtain ⟨items, hqs, hq⟩ := h
    rw [List.foldlM_cons, bind_eq_ok_iff] at hq
    obtain ⟨items', hq, hnil⟩ := hq
    obtain rfl := Except.ok.inj hnil
    obtain ⟨i, hi, -, rfl⟩ := step_eq_ok_iff.1 hq
    obtain ⟨hsize, hheld⟩ := ih hqs
    refine ⟨fun n => ?_, fun j => ?_⟩
    · rw [size_place, Nat.max_le, hsize, List.map_append, List.forall_mem_append,
        List.map_singleton, List.forall_mem_singleton, hi.forall_lt_iff]
      exact and_congr_right fun _ => Nat.succ_le_iff
    · rw [getD_place, latest_concat, hheld, readIndex?_eq_some_iff.2 hi]
      simp only [Option.some.injEq]

/-- The array that children with these names and values make, where the names denote these
positions. Each name counts once, where it first came. -/
structure Filled (ps : List (String × Value)) (is : List Nat) (vs : List Value) : Prop where
  length_eq : vs.length = Value.above is
  absent {i : Nat} : i < vs.length → (∀ p ∈ ps, ¬ IsPosition p.1 i) → vs[i]? = some .null
  /-- The last name for a position is the one that counts, and of its children the last one. -/
  named {before after : List String} {k : String} {i : Nat} :
    (ps.map (·.1)).eraseDups = before ++ k :: after → IsPosition k i →
    (∀ l ∈ after, ¬ IsPosition l i) → ∃ v, ps.reverse.lookup k = some v ∧ vs[i]? = some v

theorem above_le_iff_of_positions {ps : List (String × Value)} {is : List Nat}
    (h : List.Forall₂ (fun p i => IsPosition p.1 i) ps is) {n : Nat} :
    Value.above is ≤ n ↔ ∀ k ∈ ps.map (·.1), ∀ i, IsPosition k i → i < n := by
  rw [Value.above_le_iff]
  induction h with
  | nil => simp
  | cons hi _ ih =>
    rw [List.forall_mem_cons, List.map_cons, List.forall_mem_cons, ih, hi.forall_lt_iff]
    exact and_congr_left fun _ => Nat.succ_le_iff

theorem getElem?_of_getD {i : Nat} (h : i < items.size) :
    items.toList[i]? = some (items[i]?.getD .null) := by
  rw [Array.getElem?_toList, Array.getElem?_eq_getElem h]
  rfl

theorem filled {ps : List (String × Value)} {is : List Nat}
    (his : List.Forall₂ (fun p i => IsPosition p.1 i) ps is)
    (h : (OrderedMap.ofPairs ps).items.foldlM (step limit) #[] = .ok items) :
    Filled ps is items.toList := by
  have hkeys : (OrderedMap.ofPairs ps).items.map (·.1) = (ps.map (·.1)).eraseDups := by
    rw [(OrderedMap.wellFormed_ofPairs ps).keys_items, OrderedMap.order_ofPairs]
  obtain ⟨hsize, hheld⟩ := built h
  rw [hkeys] at hsize
  simp only [List.mem_eraseDups] at hsize
  refine ⟨?_, fun hi hnone => ?_, ?_⟩
  · rw [Array.length_toList]
    exact Nat.le_antisymm ((hsize _).2 ((above_le_iff_of_positions his).1 (Nat.le_refl _)))
      ((above_le_iff_of_positions his).2 ((hsize _).1 (Nat.le_refl _)))
  · rw [getElem?_of_getD hi, hheld, latest_eq_null]
    intro q hq hpos
    have hq : q.1 ∈ ps.map (·.1) := by
      rw [← List.mem_eraseDups, ← hkeys]
      exact List.mem_map_of_mem hq
    obtain ⟨p, hp, hpq⟩ := List.mem_map.1 hq
    exact hnone p hp (hpq ▸ hpos)
  · intro before after k i hsplit hk hafter
    rw [← hkeys] at hsplit
    obtain ⟨qs, rest, hqs, rfl, hrest⟩ := List.map_eq_append_iff.1 hsplit
    obtain ⟨q, rs, rfl, rfl, rfl⟩ := List.map_eq_cons_iff.1 hrest
    have hmem : q ∈ (OrderedMap.ofPairs ps).items := by
      rw [hqs]
      exact List.mem_append_right _ List.mem_cons_self
    refine ⟨q.2, ?_, ?_⟩
    · rw [← OrderedMap.get?_ofPairs]
      exact Table.find?_of_mem_arrange hmem
    · have hlt : i < items.size := by
        by_contra hge
        have hlt := (hsize i).1 (Nat.not_lt.1 hge) q.1 ?_ i hk
        · exact absurd hlt (Nat.lt_irrefl i)
        · rw [← List.mem_eraseDups, ← hkeys]
          exact List.mem_map_of_mem hmem
      rw [getElem?_of_getD hlt, hheld, hqs, latest_append_cons hk]
      exact fun p hp => hafter p.1 (List.mem_map_of_mem hp)

/-- If all names for a position are spelled alike, the last child for it counts. -/
theorem Filled.last {ps : List (String × Value)} {is : List Nat} {vs : List Value}
    (h : Filled ps is vs) {i : Nat}
    (halike : ∀ p ∈ ps, ∀ q ∈ ps, IsPosition p.1 i → IsPosition q.1 i → p.1 = q.1)
    {before after : List (String × Value)} {p : String × Value} (hps : ps = before ++ p :: after)
    (hp : IsPosition p.1 i) (hafter : ∀ q ∈ after, ¬ IsPosition q.1 i) : vs[i]? = some p.2 := by
  have hmem : p ∈ ps := by
    rw [hps]
    exact List.mem_append_right _ List.mem_cons_self
  obtain ⟨ks, ls, hnames⟩ :=
    List.append_of_mem (List.mem_eraseDups.2 (List.mem_map_of_mem (f := Prod.fst) hmem))
  have hnodup : (ks ++ p.1 :: ls).Nodup := by
    rw [← hnames]
    exact OrderedMap.order_ofPairs ps ▸ (OrderedMap.wellFormed_ofPairs ps).nodup_order
  have hls : ∀ l ∈ ls, ¬ IsPosition l i := by
    intro l hl hpos
    have hl' : l ∈ ps.map (·.1) := by
      rw [← List.mem_eraseDups]
      exact hnames ▸ List.mem_append_right _ (List.mem_cons_of_mem _ hl)
    obtain ⟨q, hq, rfl⟩ := List.mem_map.1 hl'
    rw [← halike p hmem q hq hp hpos] at hl
    exact (List.nodup_cons.1 (List.nodup_append.1 hnodup).2.1).1 hl
  obtain ⟨v, hv, hvs⟩ := h.named hnames hp hls
  have hlast : ps.reverse.lookup p.1 = some p.2 := by
    refine List.lookup_eq_some_iff.2 ⟨after.reverse, before.reverse, ?_, fun q hq => ?_⟩
    · rw [hps]
      simp
    · rw [bne_iff_ne]
      intro heq
      exact hafter q (List.mem_reverse.1 hq) (heq ▸ hp)
  rw [hvs, ← hv, hlast]

end Dense

variable {limits : Limits} {n : Nat} {f : Field}

open TypedDoc.Decode.Dense Numeral.Integer

/-- An element that holds an array is decoded to the array that its children make, if each of them
can be decoded and has a name that denotes a position below the limit. On the way the array has
grown beyond each position before a value is written to it, and the new length fits 64 bits if the
limit does. -/
theorem value_dense {ps : List (String × Value)} {is : List Nat} (htag : f.tag = "array")
    (hdepth : f.children ≠ [] → n + 1 ≤ limits.maxDepth)
    (hps : List.Forall₂ (fun c p => c.name = some p.1 ∧ value limits (n + 1) c = .ok p.2)
      f.children ps)
    (his : List.Forall₂ (fun p i => IsPosition p.1 i ∧ i < limits.maxArrayLength) ps is) :
    (∃ vs, value limits n f = .ok (.array vs) ∧ Filled ps is vs
        ∧ ∀ i, (∀ p ∈ ps, ∀ q ∈ ps, IsPosition p.1 i → IsPosition q.1 i → p.1 = q.1) →
          ∀ before p after, ps = before ++ p :: after → IsPosition p.1 i →
            (∀ q ∈ after, ¬ IsPosition q.1 i) → vs[i]? = some p.2)
      ∧ ∀ before p after, (OrderedMap.ofPairs ps).items = before ++ p :: after →
        ∃ items i, before.foldlM (step limits.maxArrayLength) #[] = .ok items
          ∧ IsPosition p.1 i ∧ i < limits.maxArrayLength
          ∧ (limits.maxArrayLength < 1 <<< 64 → i + 1 < 1 <<< 64)
          ∧ ∃ h : i < (room items i).size,
            step limits.maxArrayLength items p = .ok ((room items i).set i p.2 h) := by
  have hall : ∀ q ∈ (OrderedMap.ofPairs ps).items,
      ∃ i, IsPosition q.1 i ∧ i < limits.maxArrayLength := by
    intro q hq
    exact exists_forall₂_iff.1 ⟨is, his⟩ q (OrderedMap.mem_of_mem_items_ofPairs hq)
  refine ⟨?_, fun before p after hsplit => ?_⟩
  · obtain ⟨vs, hvs⟩ := exists_ofPairs_iff.2 hall
    obtain ⟨items, hitems, rfl⟩ := map_eq_ok_iff.1 hvs
    have hfilled := filled (his.imp fun _ _ h => h.1) hitems
    refine ⟨items.toList, ?_, hfilled, fun i halike before p after => hfilled.last halike⟩
    have hrule : Rule.ofTag? f.tag = some .array := by
      rw [htag]
      rfl
    have hdoc : document limits n f.tag f.children = .ok (.ofPairs ps) :=
      document_eq_ok_iff.2 ⟨hdepth, ps, hps, rfl⟩
    rw [value_array hrule, hdoc]
    exact bind_eq_ok_iff.2 ⟨_, rfl, bind_eq_ok_iff.2 ⟨_, hvs, rfl⟩⟩
  · rw [hsplit, List.forall_mem_append, List.forall_mem_cons] at hall
    obtain ⟨hbefore, ⟨i, hi, hlt⟩, -⟩ := hall
    obtain ⟨vs, hvs⟩ := exists_ofPairs_iff.2 hbefore
    obtain ⟨items, hitems, -⟩ := map_eq_ok_iff.1 hvs
    refine ⟨items, i, hitems, hi, hlt, by omega, lt_size_room items i, ?_⟩
    rw [← place_eq_set]
    exact step_eq_ok_iff.2 ⟨i, hi, hlt, rfl⟩

/-- Two spellings of a position: the child that comes last is not the one that counts, since its
name came first. -/
theorem value_dense_spellings :
    ∃ vs, value {} 0 (.mk "array" none none
        [.mk "string" (some "1") (some "a") [], .mk "string" (some "01") (some "b") [],
          .mk "null" (some "1") none []]) = .ok (.array vs)
      ∧ vs.length = 2 ∧ vs[0]? = some .null ∧ vs[1]? = some (.string "b") := by
  have hposition : ∀ k i, readIndex? k.toList = some i → IsPosition k i :=
    fun _ _ => readIndex?_eq_some_iff.1
  have hps : List.Forall₂ (fun c p => Field.name c = some p.1 ∧ value {} 1 c = .ok p.2)
      [.mk "string" (some "1") (some "a") [], .mk "string" (some "01") (some "b") [],
        .mk "null" (some "1") none []]
      [("1", .string "a"), ("01", .string "b"), ("1", .null)] :=
    .cons ⟨rfl, rfl⟩ (.cons ⟨rfl, rfl⟩ (.cons ⟨rfl, rfl⟩ .nil))
  have his : List.Forall₂ (fun (p : String × Value) i => IsPosition p.1 i ∧ i < 1 <<< 24)
      [("1", .string "a"), ("01", .string "b"), ("1", .null)] [1, 1, 1] :=
    .cons ⟨hposition _ _ rfl, by decide⟩ (.cons ⟨hposition _ _ rfl, by decide⟩
      (.cons ⟨hposition _ _ rfl, by decide⟩ .nil))
  obtain ⟨⟨vs, hvs, hfilled, -⟩, -⟩ :=
    value_dense (f := .mk "array" none none _) rfl (fun _ => by decide) hps his
  have hlength : vs.length = 2 := hfilled.length_eq
  refine ⟨vs, hvs, hlength, hfilled.absent (by omega) ?_, ?_⟩
  · simp only [← readIndex?_eq_some_iff]
    decide
  · obtain ⟨v, hv, hvs⟩ := hfilled.named (show _ = ["1"] ++ "01" :: [] from rfl)
      (hposition "01" 1 rfl) (by simp)
    rw [hvs, ← hv]
    rfl

end Decode

end TypedDoc

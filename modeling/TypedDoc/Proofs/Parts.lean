import TypedDoc.Proofs.PairList

/-!
# The parts of values

The values that a value holds directly (`Value.parts`), those that lie in it at any depth
(`Value.Inner`), and how deep they are nested (`Value.nesting`). A value fits some limits if it is
nested no deeper than one of them allows, and every value in it is as it should be by itself
(`Value.Proper`); whether it fits is decided by the value and its parts alone (`Value.fits_iff`).
-/

namespace TypedDoc

open Numeral (Binary64)

/-- A recursion that changes the items of a list one by one is a map. -/
theorem eq_map_of_cons {α β : Type} {f : α → β} {g : List α → List β} (hnil : g [] = [])
    (hcons : ∀ a as, g (a :: as) = f a :: g as) (as : List α) : g as = as.map f := by
  induction as with
  | nil => exact hnil
  | cons a as ih => rw [hcons, ih, List.map_cons]

namespace Table

variable {α β : Type}

theorem find?_map (f : α → β) (t : Table α) (key : String) :
    Table.find? (t.map fun e => (e.1, f e.2)) key = (t.find? key).map f := by
  induction t with
  | nil => rfl
  | cons e t ih =>
    obtain ⟨k, v⟩ := e
    simp only [List.map_cons, find?]
    split_ifs
    · rfl
    · exact ih

/-- The pairs of a table whose values have been changed one by one. -/
theorem arrange_map (f : α → β) (t : Table α) (order : List String) :
    Table.arrange (t.map fun e => (e.1, f e.2)) order =
      (t.arrange order).map fun p => (p.1, f p.2) := by
  unfold arrange
  rw [List.map_filterMap]
  refine List.filterMap_congr fun key _ => ?_
  rw [find?_map, Option.map_map, Option.map_map]
  rfl

theorem find?_of_mem_arrange {t : Table α} {order : List String} {p : String × α}
    (h : p ∈ t.arrange order) : t.find? p.1 = some p.2 := by
  obtain ⟨key, -, hp⟩ := List.mem_filterMap.1 h
  obtain ⟨v, hv, rfl⟩ := Option.map_eq_some_iff.1 hp
  exact hv

theorem mem_of_mem_arrange {t : Table α} {order : List String} {p : String × α}
    (h : p ∈ t.arrange order) : p ∈ t := mem_of_find? (find?_of_mem_arrange h)

end Table

theorem OrderedMap.mem_values_iff {α : Type} {m : OrderedMap α} {v : α} :
    v ∈ m.values ↔ ∃ key, (key, v) ∈ m.items := by
  unfold values
  rw [List.mem_map]
  refine ⟨?_, ?_⟩
  · rintro ⟨⟨key, _⟩, hp, rfl⟩
    exact ⟨key, hp⟩
  · rintro ⟨key, hp⟩
    exact ⟨_, hp, rfl⟩

theorem OrderedMap.mem_values_of_mem {α : Type} {m : OrderedMap α} {p : String × α}
    (h : p ∈ m.items) : p.2 ∈ m.values := mem_values_iff.2 ⟨p.1, h⟩

namespace Value

inductive SameKind : Value → Value → Prop
  | null : SameKind null null
  | boolean (b c : Bool) : SameKind (boolean b) (boolean c)
  | integer (m n : Int64) : SameKind (integer m) (integer n)
  | number (x y : Binary64) : SameKind (number x) (number y)
  | string (s t : String) : SameKind (string s) (string t)
  | binary (b c : Binary) : SameKind (binary b) (binary c)
  | array (as bs : List Value) : SameKind (array as) (array bs)
  | document (d e : Document) : SameKind (document d) (document e)
  | date (t u : Timestamp) : SameKind (date t) (date u)
  | regex (r s : Regex) : SameKind (regex r) (regex s)
  | objectId (o p : ObjectId) : SameKind (objectId o) (objectId p)
  | reference (b c : String) (v w : Value) : SameKind (reference b v) (reference c w)
  | code (s t : String) : SameKind (code s) (code t)

theorem sameKind_of_kind_eq {v w : Value} (h : v.kind = w.kind) : SameKind v w := by
  cases v <;> cases w <;> simp only [kind, reduceCtorEq] at h <;> constructor

/-- The values that a value holds directly. -/
def parts : Value → List Value
  | array items => items
  | document d => d.values
  | reference _ id => [id]
  | _ => []

theorem sizeOf_lt_of_mem_parts {v w : Value} (h : w ∈ v.parts) : sizeOf w < sizeOf v := by
  cases v with
  | array items =>
    have := List.sizeOf_lt_of_mem (show w ∈ items from h)
    simp only [array.sizeOf_spec]
    omega
  | document d =>
    obtain ⟨key, hp⟩ := OrderedMap.mem_values_iff.1 (show w ∈ d.values from h)
    have hlt := List.sizeOf_lt_of_mem (Table.mem_of_mem_arrange hp)
    obtain ⟨order, entries⟩ := d
    simp only [document.sizeOf_spec, OrderedMap.mk.sizeOf_spec, Prod.mk.sizeOf_spec] at hlt ⊢
    simp only [OrderedMap.table] at hlt
    omega
  | reference collection id =>
    obtain rfl := List.mem_singleton.1 (show w ∈ [id] from h)
    simp only [reference.sizeOf_spec]
    omega
  | _ => cases h

theorem induction {P : Value → Prop} (h : ∀ v, (∀ w ∈ v.parts, P w) → P v) (v : Value) : P v :=
  h v fun w _ => induction h w
termination_by sizeOf v
decreasing_by exact sizeOf_lt_of_mem_parts ‹_›

/-- One more than the greatest of some numbers, and zero if there are none. -/
def above (ns : List Nat) : Nat := ns.foldr (fun n m => max (n + 1) m) 0

theorem above_le_iff {ns : List Nat} {k : Nat} : above ns ≤ k ↔ ∀ n ∈ ns, n + 1 ≤ k := by
  induction ns with
  | nil => simp [above]
  | cons n ns ih =>
    rw [List.forall_mem_cons, ← ih]
    exact Nat.max_le

mutual

/-- How deep the parts of a value are nested. A regular expression counts for one. -/
def nesting : Value → Nat
  | array items => above (itemNestings items)
  | document ⟨order, entries⟩ => above ((Table.arrange (entryNestings entries) order).map (·.2))
  | reference _ id => nesting id + 1
  | regex _ => 1
  | null | boolean _ | integer _ | number _ | string _ => 0
  | binary _ | date _ | objectId _ | code _ => 0

def itemNestings : List Value → List Nat
  | [] => []
  | v :: vs => nesting v :: itemNestings vs

def entryNestings : List (String × Value) → List (String × Nat)
  | [] => []
  | (k, v) :: rest => (k, nesting v) :: entryNestings rest

end

theorem itemNestings_eq (vs : List Value) : itemNestings vs = vs.map nesting :=
  eq_map_of_cons rfl (fun _ _ => rfl) vs

theorem entryNestings_eq (es : List (String × Value)) :
    entryNestings es = es.map fun e => (e.1, nesting e.2) :=
  eq_map_of_cons rfl (fun _ _ => rfl) es

theorem nesting_document (d : Document) : nesting (document d) = above (d.values.map nesting) := by
  obtain ⟨order, entries⟩ := d
  rw [nesting, entryNestings_eq, Table.arrange_map, List.map_map]
  unfold OrderedMap.values
  rw [List.map_map]
  rfl

theorem nesting_le_iff {v : Value} {k : Nat} :
    v.nesting ≤ k ↔ (v.kind = .regex → 1 ≤ k) ∧ ∀ w ∈ v.parts, w.nesting + 1 ≤ k := by
  cases v with
  | array items => simp [nesting, itemNestings_eq, above_le_iff, parts, kind]
  | document d => simp [nesting_document, above_le_iff, parts, kind]
  | _ => simp [nesting, parts, kind]

/-- A value and the values that lie in it, at any depth. -/
inductive Inner (v : Value) : Value → Prop
  | self : Inner v v
  | part {w u : Value} : Inner v w → u ∈ w.parts → Inner v u

theorem Inner.of_part {v w u : Value} (h : w ∈ v.parts) (hu : w.Inner u) : v.Inner u := by
  induction hu with
  | self => exact .part .self h
  | part _ hp ih => exact .part ih hp

theorem inner_iff {v u : Value} : v.Inner u ↔ u = v ∨ ∃ w ∈ v.parts, w.Inner u := by
  refine ⟨fun h => ?_, ?_⟩
  · induction h with
    | self => exact .inl rfl
    | part _ hp ih =>
      rcases ih with rfl | ⟨w, hw, hi⟩
      · exact .inr ⟨_, hp, .self⟩
      · exact .inr ⟨w, hw, .part hi hp⟩
  · rintro (rfl | ⟨w, hw, hi⟩)
    · exact .self
    · exact .of_part hw hi

theorem forall_inner_iff {v : Value} {P : Value → Prop} :
    (∀ u, v.Inner u → P u) ↔ P v ∧ ∀ w ∈ v.parts, ∀ u, w.Inner u → P u := by
  refine ⟨fun h => ⟨h v .self, fun w hw u hu => h u (.of_part hw hu)⟩, ?_⟩
  rintro ⟨hself, hparts⟩ u hu
  rcases inner_iff.1 hu with rfl | ⟨w, hw, hu⟩
  · exact hself
  · exact hparts w hw u hu

/-- What decoding gives looks like this: arrays up to some length, documents that list each key
once, and no subtypes or options but the known ones. -/
def Proper (length : Nat) : Value → Prop
  | array items => items.length ≤ length
  | document d => d.WellFormed
  | binary b => b.subtype = 0
  | regex r => r.options.unknown = 0
  | _ => True

structure Fits (depth length : Nat) (v : Value) : Prop where
  nesting : v.nesting ≤ depth
  proper : ∀ w, v.Inner w → w.Proper length

theorem fits_iff {depth length : Nat} {v : Value} : v.Fits depth length ↔
    v.Proper length ∧ (v.kind = .regex → 1 ≤ depth)
      ∧ ∀ w ∈ v.parts, 1 ≤ depth ∧ w.Fits (depth - 1) length := by
  refine ⟨fun ⟨hn, hp⟩ => ?_, fun ⟨hp, hr, hparts⟩ => ⟨?_, ?_⟩⟩
  · obtain ⟨hr, hn⟩ := nesting_le_iff.1 hn
    obtain ⟨hself, hproper⟩ := forall_inner_iff.1 hp
    refine ⟨hself, hr, fun w hw => ?_⟩
    have := hn w hw
    exact ⟨by omega, by omega, hproper w hw⟩
  · refine nesting_le_iff.2 ⟨hr, fun w hw => ?_⟩
    obtain ⟨hd, hw⟩ := hparts w hw
    have := hw.nesting
    omega
  · exact forall_inner_iff.2 ⟨hp, fun w hw => (hparts w hw).2.proper⟩

theorem fits_of_parts_nil {depth length : Nat} {v : Value} (hp : v.Proper length)
    (hparts : v.parts = []) (hk : v.kind ≠ .regex) : v.Fits depth length := by
  refine fits_iff.2 ⟨hp, fun h => absurd h hk, fun w hw => ?_⟩
  rw [hparts] at hw
  cases hw

end Value

end TypedDoc

import Mathlib.Order.WithBot
import TypedDoc.Proofs.Flattening
import TypedDoc.Proofs.Numerals

/-!
# What equality means

Two values are equal if they are of one kind and hold the same, where numbers are compared as
numbers and documents pair by pair (`Value.Equal`). Equality of documents compares the order of the
keys and the tables apart from each other, and tables by their sizes and one look-up for each entry
of the one of them. As each key is in its table once, as many keys of which all are in the other
table are all of its keys (`Table.agree_iff_count`), so both come to the same
(`run_equality`).
-/

namespace TypedDoc

open Numeral (Binary64)

/-! ## Numbers -/

namespace Numeral.Binary64

/-- The value of a finite number, with its sign. -/
def signed (x : Binary64) : ℚ := if x.isNegative then -x.value else x.value

/-- The number on the extended line that is meant; a NaN means none. -/
def extended? (x : Binary64) : Option (WithBot (WithTop ℚ)) :=
  if x.isNaN then none
  else if x.isFinite then some ((x.signed : WithTop ℚ) : WithBot (WithTop ℚ))
  else if x.isNegative then some ⊥
  else some ((⊤ : WithTop ℚ) : WithBot (WithTop ℚ))

variable {x y : Binary64}

theorem value_nonneg (x : Binary64) : 0 ≤ x.value := by
  unfold value
  positivity

theorem signed_of_isZero (h : x.isZero = true) : x.signed = 0 := by
  simp [signed, value_eq_zero_iff.2 h]

theorem isFinite_of_isZero (h : x.isZero = true) : x.isFinite = true := by
  simp only [isZero, isFinite, Bool.and_eq_true, beq_iff_eq, bne_iff_ne] at *
  omega

/-- Only the two zeros have the same value. -/
theorem eq_or_isZero_of_signed_eq (hx : x.isFinite = true) (hy : y.isFinite = true)
    (h : x.signed = y.signed) : x = y ∨ x.isZero = true ∧ y.isZero = true := by
  have hx0 := x.value_nonneg
  have hy0 := y.value_nonneg
  unfold signed at h
  by_cases hsign : x.isNegative = y.isNegative
  · have hvalue : x.value = y.value := by
      rw [hsign] at h
      split_ifs at h
      · exact neg_inj.1 h
      · exact h
    left
    rw [← nearest_value hx, ← nearest_value hy, hsign, hvalue]
  · have hzero : x.value = 0 ∧ y.value = 0 := by
      cases hxn : x.isNegative <;> cases hyn : y.isNegative <;> simp [hxn, hyn] at h hsign <;>
        constructor <;> linarith
    exact .inr ⟨value_eq_zero_iff.1 hzero.1, value_eq_zero_iff.1 hzero.2⟩

theorem beq_iff : (x == y) = true ↔
    x.isNaN = false ∧ y.isNaN = false ∧ (x = y ∨ x.isZero = true ∧ y.isZero = true) := by
  obtain ⟨bits⟩ := x
  obtain ⟨bits'⟩ := y
  show beq _ _ = true ↔ _
  simp [beq, and_assoc]

theorem beq_comm (x y : Binary64) : (x == y) = (y == x) := by
  rw [Bool.eq_iff_iff, beq_iff, beq_iff, and_left_comm, eq_comm (a := x),
    and_comm (a := x.isZero = true)]

/-- Numbers are equal if they mean the same number. -/
theorem beq_iff_extended? :
    (x == y) = true ↔ ∃ r, x.extended? = some r ∧ y.extended? = some r := by
  rw [beq_iff]
  by_cases hx : x.isNaN = true
  · simp [extended?, hx]
  by_cases hy : y.isNaN = true
  · simp [extended?, hy]
  rw [Bool.not_eq_true] at hx hy
  have hzero : ∀ {z : Binary64}, z.isFinite = false → z.isZero = false := by
    intro z hz
    by_contra h
    simp [isFinite_of_isZero (Bool.of_not_eq_false h)] at hz
  rcases hxf : x.isFinite with _ | _ <;> rcases hyf : y.isFinite with _ | _
  · have hsign : x = y ↔ x.isNegative = y.isNegative := by
      refine ⟨fun h => h ▸ rfl, fun h => ?_⟩
      rw [eq_infinity hxf hx, eq_infinity hyf hy, h]
    cases hxn : x.isNegative <;> cases hyn : y.isNegative <;>
      simp [extended?, hx, hy, hxf, hyf, hzero, hsign, hxn, hyn]
  · have hne : x ≠ y := fun h => by simp [h, hyf] at hxf
    cases hxn : x.isNegative <;> simp [extended?, hx, hy, hxf, hyf, hzero, hne, hxn]
  · have hne : x ≠ y := fun h => by simp [h, hyf] at hxf
    cases hyn : y.isNegative <;> simp [extended?, hx, hy, hxf, hyf, hzero, hne, hyn]
  · have hsigned : (∃ r, x.extended? = some r ∧ y.extended? = some r) ↔ x.signed = y.signed := by
      simp [extended?, hx, hy, hxf, hyf, eq_comm]
    rw [hsigned]
    refine ⟨?_, fun h => ⟨hx, hy, eq_or_isZero_of_signed_eq hxf hyf h⟩⟩
    rintro ⟨-, -, rfl | ⟨hx0, hy0⟩⟩
    · rfl
    · rw [signed_of_isZero hx0, signed_of_isZero hy0]

end Numeral.Binary64

/-! ## Tables -/

namespace Table

variable {α β : Type} {R : α → β → Prop} {t : Table α} {t' : Table β}

/-- Two tables have the same keys and related values for each of them. -/
structure Agree (R : α → β → Prop) (t : Table α) (t' : Table β) : Prop where
  mem_keys_iff : ∀ key, key ∈ t.keys ↔ key ∈ t'.keys
  rel : ∀ key v w, t.find? key = some v → t'.find? key = some w → R v w

theorem agree_iff_cases : Agree R t t' ↔ ∀ key, (t.find? key = none ∧ t'.find? key = none)
    ∨ ∃ v w, t.find? key = some v ∧ t'.find? key = some w ∧ R v w := by
  refine ⟨fun h key => ?_, fun h => ⟨fun key => ?_, fun key v w hv hw => ?_⟩⟩
  · have hkey := h.mem_keys_iff key
    rw [mem_keys_iff, mem_keys_iff] at hkey
    rcases hv : t.find? key with _ | v <;> rcases hw : t'.find? key with _ | w <;>
      simp [hv, hw] at hkey ⊢
    exact h.rel key v w hv hw
  · rw [mem_keys_iff, mem_keys_iff]
    rcases h key with ⟨hv, hw⟩ | ⟨v, w, hv, hw, -⟩ <;> simp [hv, hw]
  · rcases h key with ⟨hv', -⟩ | ⟨v', w', hv', hw', hr⟩ <;> simp_all

theorem Agree.forall₂_arrange (h : Agree R t t') (order : List String) :
    List.Forall₂ (fun p q => p.1 = q.1 ∧ R p.2 q.2) (t.arrange order) (t'.arrange order) := by
  induction order with
  | nil => exact .nil
  | cons key order ih =>
    unfold arrange at ih ⊢
    rcases agree_iff_cases.1 h key with ⟨hv, hw⟩ | ⟨v, w, hv, hw, hr⟩
    · simpa [hv, hw] using ih
    · simpa [hv, hw, hr] using ih

theorem agree_of_forall₂ (h : List.Forall₂ (fun p q => p.1 = q.1 ∧ R p.2 q.2) t t') :
    Agree R t t' := by
  refine agree_iff_cases.2 fun key => ?_
  induction h with
  | nil => exact .inl ⟨rfl, rfl⟩
  | cons hpq _ ih =>
    unfold find?
    rw [hpq.1]
    split_ifs
    · exact .inr ⟨_, _, rfl, rfl, hpq.2⟩
    · exact ih

/-- Tables in ascending order agree if they do so entry by entry. -/
theorem agree_iff_forall₂ (ht : t.Ascending) (ht' : t'.Ascending) : Agree R t t' ↔
    List.Forall₂ (fun p q => p.1 = q.1 ∧ R p.2 q.2) t t' := by
  refine ⟨fun h => ?_, agree_of_forall₂⟩
  have hall := h.forall₂_arrange t.keys
  rwa [arrange_keys ht.nodup_keys, keys_eq_of_mem_iff ht ht' h.mem_keys_iff,
    arrange_keys ht'.nodup_keys] at hall

/-- Two tables of one size agree if each key of the one has a related value in the other: then the
other has no room for further keys. -/
theorem agree_iff_count (ht : t.keys.Nodup) (ht' : t'.keys.Nodup) : Agree R t t' ↔
    t.length = t'.length ∧ ∀ e ∈ t, ∃ w, t'.find? e.1 = some w ∧ R e.2 w := by
  have hlength : t.keys.length = t.length := List.length_map _
  have hlength' : t'.keys.length = t'.length := List.length_map _
  refine ⟨fun h => ⟨?_, fun e he => ?_⟩, fun ⟨hsize, h⟩ => ⟨?_, fun key v w hv hw => ?_⟩⟩
  · rw [← hlength, ← hlength']
    exact ((List.perm_ext_iff_of_nodup ht ht').2 h.mem_keys_iff).length_eq
  · have hv := (find?_eq_some_iff ht).2 he
    rcases agree_iff_cases.1 h e.1 with ⟨hv', -⟩ | ⟨v, w, hv', hw, hr⟩ <;> simp_all
  · have hsub : t.keys ⊆ t'.keys := by
      intro key hk
      obtain ⟨e, he, rfl⟩ := List.mem_map.1 hk
      obtain ⟨w, hw, -⟩ := h e he
      exact (mem_keys_iff _ _).2 (Option.isSome_of_eq_some hw)
    have hperm := (ht.subperm hsub).perm_of_length_le (by omega)
    exact fun key => hperm.mem_iff
  · obtain ⟨w', hw', hr⟩ := h _ (mem_of_find? hv)
    simp_all

theorem find?_eq_lookup (t : Table α) (key : String) : t.find? key = t.lookup key := by
  induction t with
  | nil => rfl
  | cons e t ih =>
    rw [find?, List.lookup_cons, ih]
    by_cases h : e.1 = key
    · simp [h]
    · simp [h, beq_eq_false_iff_ne.2 (Ne.symm h)]

end Table

namespace OrderedMap.WellFormed

variable {α : Type} {m : OrderedMap α}

theorem find?_items (h : m.WellFormed) (key : String) :
    Table.find? m.items key = m.table.find? key :=
  (Table.find?_eq_lookup _ _).trans (h.lookup_items key)

theorem table_ofPairs_items (h : m.WellFormed) : Table.ofPairs m.items = m.table := by
  rw [← OrderedMap.table_ofPairs, OrderedMap.ofPairs_items h]

end OrderedMap.WellFormed

/-! ## Values -/

namespace Value

mutual

-- along the first value; the second one is of the same kind, or the two are not equal
theorem beq_symm : ∀ {v w : Value}, v.beq w = true → w.beq v = true
  | .array as, w, h => by
    cases w <;> simp only [beq, Bool.false_eq_true] at h ⊢
    exact beqItems_symm h
  | .document ⟨order, table⟩, w, h => by
    rcases w with _ | _ | _ | _ | _ | _ | _ | ⟨order', table'⟩ | _ | _ | _ | _ | _ <;>
      simp only [beq, Bool.false_eq_true, Bool.and_eq_true, beq_iff_eq] at h ⊢
    exact ⟨h.1.symm, beqTable_symm h.2⟩
  | .reference c v, w, h => by
    cases w <;> simp only [beq, Bool.false_eq_true, Bool.and_eq_true, beq_iff_eq] at h ⊢
    exact ⟨h.1.symm, beq_symm h.2⟩
  | .number x, w, h => by
    cases w <;> simp only [beq, Bool.false_eq_true] at h ⊢
    rwa [Binary64.beq_comm]
  | .null, w, h | .boolean _, w, h | .integer _, w, h | .string _, w, h | .binary _, w, h
  | .date _, w, h | .regex _, w, h | .objectId _, w, h | .code _, w, h => by
    cases w <;> simp_all [beq]

theorem beqItems_symm : ∀ {as bs : List Value}, beqItems as bs = true → beqItems bs as = true
  | [], [], _ => rfl
  | [], _ :: _, h => by simp [beqItems] at h
  | _ :: _, [], h => by simp [beqItems] at h
  | _ :: _, _ :: _, h => by
    simp only [beqItems, Bool.and_eq_true] at h ⊢
    exact ⟨beq_symm h.1, beqItems_symm h.2⟩

theorem beqTable_symm : ∀ {t t' : List (String × Value)}, beqTable t t' = true →
    beqTable t' t = true
  | [], [], _ => rfl
  | [], _ :: _, h => by simp [beqTable] at h
  | _ :: _, [], h => by simp [beqTable] at h
  | (k, v) :: _, (k', v') :: _, h => by
    simp only [beqTable, Bool.and_eq_true, beq_iff_eq] at h ⊢
    exact ⟨⟨h.1.1.symm, beq_symm h.1.2⟩, beqTable_symm h.2⟩

end

theorem beq_comm (v w : Value) : (v == w) = (w == v) :=
  Bool.eq_iff_iff.2 ⟨beq_symm, beq_symm⟩

theorem beqItems_iff {as bs : List Value} :
    beqItems as bs = true ↔ List.Forall₂ (fun a b => (a == b) = true) as bs := by
  induction as generalizing bs with
  | nil => cases bs <;> simp [beqItems]
  | cons a as ih =>
    cases bs with
    | nil => simp [beqItems]
    | cons b bs =>
      rw [beqItems, Bool.and_eq_true, ih, List.forall₂_cons]
      rfl

theorem beqTable_iff {t t' : List (String × Value)} : beqTable t t' = true ↔
    List.Forall₂ (fun p q => p.1 = q.1 ∧ (p.2 == q.2) = true) t t' := by
  induction t generalizing t' with
  | nil => cases t' <;> simp [beqTable]
  | cons p t ih =>
    cases t' with
    | nil => simp [beqTable]
    | cons q t' =>
      rw [beqTable, Bool.and_eq_true, Bool.and_eq_true, ih, List.forall₂_cons, beq_iff_eq]
      rfl

end Value

namespace Document

variable {d e : Document}

theorem beq_iff_agree (hd : d.WellFormed) (he : e.WellFormed) : (d == e) = true ↔
    d.order = e.order ∧ Table.Agree (fun v w : Value => (v == w) = true) d.table e.table := by
  rw [Table.agree_iff_forall₂ hd.ascending_table he.ascending_table, ← Value.beqTable_iff]
  show (d.order == e.order && Value.beqTable d.table e.table) = true ↔ _
  rw [Bool.and_eq_true, beq_iff_eq]

theorem beq_iff_items (hd : d.WellFormed) (he : e.WellFormed) : (d == e) = true ↔
    List.Forall₂ (fun p q => p.1 = q.1 ∧ (p.2 == q.2) = true) d.items e.items := by
  rw [beq_iff_agree hd he]
  refine ⟨fun ⟨horder, h⟩ => ?_, fun h => ⟨?_, ?_⟩⟩
  · rw [OrderedMap.items, OrderedMap.items, ← horder]
    exact h.forall₂_arrange d.order
  · rw [← hd.keys_items, ← he.keys_items]
    exact ((forall₂_pairs_iff (R := fun v w : Value => (v == w) = true)).1 h).1
  · have hall := Table.agree_iff_cases.1
      (Table.agree_of_forall₂ (R := fun v w : Value => (v == w) = true) h)
    refine Table.agree_iff_cases.2 fun key => ?_
    simpa only [hd.find?_items, he.find?_items] using hall key

theorem hasContents_iff (hd : d.WellFormed) {t : Table Value} (ht : t.Ascending) :
    d.hasContents t = true ↔ Table.Agree (fun v w : Value => (v == w) = true) d.table t := by
  rw [Table.agree_iff_count hd.nodup_keys ht.nodup_keys, hasContents, Bool.and_eq_true, beq_iff_eq,
    hd.size_eq_length_entries, List.all_eq_true]
  refine and_congr_right fun _ => forall₂_congr fun e _ => ?_
  rcases t.find? e.1 with _ | w
  · simp
  · simp [Value.beq_comm w]

/-- The comparison with a table, for the table of another document. -/
theorem beq_iff_hasContents (hd : d.WellFormed) (he : e.WellFormed) : (d == e) = true ↔
    d.hasContents (Table.ofPairs e.items) = true ∧ d.keys = e.keys := by
  rw [he.table_ofPairs_items, hasContents_iff hd he.ascending_table, beq_iff_agree hd he, and_comm]
  rfl

theorem beq_iff_count (hd : d.WellFormed) (he : e.WellFormed) : (d == e) = true ↔
    d.order = e.order ∧ d.entries.length = e.entries.length
      ∧ ∀ p ∈ d.entries, ∃ w, e.get? p.1 = some w ∧ (p.2 == w) = true := by
  rw [beq_iff_agree hd he, Table.agree_iff_count hd.nodup_keys he.nodup_keys]
  rfl

end Document

namespace Value

/-- Values of one kind that hold the same: numbers that mean the same number, items one by one, and
documents with the same keys in the same order and equal values. -/
inductive Equal : Value → Value → Prop
  | leaf {v : Value} : v.kind ∉ [Kind.number, .array, .document, .reference] → Equal v v
  | number {x y : Binary64} {r : WithBot (WithTop ℚ)} : x.extended? = some r →
    y.extended? = some r → Equal (number x) (number y)
  | array {as bs : List Value} : List.Forall₂ Equal as bs → Equal (array as) (array bs)
  | document {d e : Document} : d.items.map (·.1) = e.items.map (·.1) →
    List.Forall₂ Equal (d.items.map (·.2)) (e.items.map (·.2)) → Equal (document d) (document e)
  | reference (collection : String) {v w : Value} : Equal v w →
    Equal (reference collection v) (reference collection w)

theorem Equal.kind_eq {v w : Value} (h : v.Equal w) : v.kind = w.kind := by
  cases h <;> rfl

theorem kind_eq_of_beq {v w : Value} (h : (v == w) = true) : v.kind = w.kind := by
  change v.beq w = true at h
  cases v <;> cases w <;> simp [beq, kind] at h ⊢

theorem equal_leaf_iff {v w : Value} (h : v.kind ∉ [Kind.number, .array, .document, .reference]) :
    v.Equal w ↔ v = w := by
  refine ⟨fun hvw => ?_, fun hvw => hvw ▸ .leaf h⟩
  cases hvw with
  | leaf => rfl
  | _ => simp [kind] at h

theorem equal_number_iff {x y : Binary64} :
    (number x).Equal (number y) ↔ (x == y) = true := by
  rw [Binary64.beq_iff_extended?]
  refine ⟨fun h => ?_, fun ⟨r, hx, hy⟩ => .number hx hy⟩
  cases h with
  | leaf h => simp [kind] at h
  | number hx hy => exact ⟨_, hx, hy⟩

theorem equal_array_iff {as bs : List Value} :
    (array as).Equal (array bs) ↔ List.Forall₂ Equal as bs := by
  refine ⟨fun h => ?_, .array⟩
  cases h with
  | leaf h => simp [kind] at h
  | array h => exact h

theorem equal_document_iff {d e : Document} : (document d).Equal (document e) ↔
    List.Forall₂ (fun p q => p.1 = q.1 ∧ p.2.Equal q.2) d.items e.items := by
  rw [forall₂_pairs_iff]
  refine ⟨fun h => ?_, fun ⟨hk, hv⟩ => .document hk hv⟩
  cases h with
  | leaf h => simp [kind] at h
  | document hk hv => exact ⟨hk, hv⟩

theorem equal_reference_iff {b c : String} {v w : Value} :
    (reference b v).Equal (reference c w) ↔ b = c ∧ v.Equal w := by
  refine ⟨fun h => ?_, fun ⟨hc, h⟩ => hc ▸ .reference b h⟩
  cases h with
  | leaf h => simp [kind] at h
  | reference _ h => exact ⟨rfl, h⟩

theorem beq_iff_equal : ∀ v w : Value, v.WellFormed → w.WellFormed →
    ((v == w) = true ↔ v.Equal w) := by
  intro v
  induction v using Value.induction with
  | h v ih =>
    intro w hv hw
    have hparts : ∀ a ∈ v.parts, ∀ b ∈ w.parts, (a == b) = true ↔ a.Equal b :=
      fun a ha b hb => ih a ha b (hv.of_mem_parts ha) (hw.of_mem_parts hb)
    by_cases hkind : v.kind = w.kind
    · cases sameKind_of_kind_eq hkind with
      | number x y => rw [equal_number_iff]; rfl
      | array as bs =>
        rw [equal_array_iff]
        exact beqItems_iff.trans (forall₂_congr_of_mem hparts)
      | document d e =>
        rw [equal_document_iff]
        refine (Document.beq_iff_items (hv d .self) (hw e .self)).trans (forall₂_congr_of_mem ?_)
        intro p hp q hq
        rw [hparts p.2 (OrderedMap.mem_values_of_mem hp) q.2 (OrderedMap.mem_values_of_mem hq)]
      | reference b c v w =>
        rw [equal_reference_iff, ← hparts v (by simp [parts]) w (by simp [parts])]
        show (b == c && v.beq w) = true ↔ _
        rw [Bool.and_eq_true, beq_iff_eq]
        rfl
      | _ =>
        rw [equal_leaf_iff (by simp [kind])]
        show beq _ _ = true ↔ _
        simp [beq]
    · exact ⟨fun h => absurd (kind_eq_of_beq h) hkind, fun h => absurd h.kind_eq hkind⟩

end Value

/-- Equality of documents that a program holds, whatever has been done to them. Two documents are
equal, by their orders and the look-ups that are made, if their pairs are, one by one, with the same
keys. A document and a table are equal, on either side, if they have the same keys with equal values;
and two documents are equal if the one equals the table of the other's pairs and their keys come in
the same order. Equal values are of one kind and hold the same. -/
theorem run_equality (as : List Action) (i j : ℕ) :
    let d : Document := (Representation.documents.run as).2 i
    let e : Document := (Representation.documents.run as).2 j
    (d == e ↔ d.order = e.order ∧ d.entries.length = e.entries.length
        ∧ ∀ p ∈ d.entries, ∃ w, e.get? p.1 = some w ∧ p.2 == w)
      ∧ (d == e ↔ List.Forall₂ (fun p q => p.1 = q.1 ∧ p.2 == q.2) d.items e.items)
      ∧ (∀ t : Table Value, t.Ascending → t.isContentsOf d = d.hasContents t
        ∧ (d.hasContents t ↔ (∀ key, key ∈ d.keys ↔ key ∈ t.keys)
          ∧ ∀ key v w, d.get? key = some v → t.find? key = some w → v == w))
      ∧ (d == e ↔ d.hasContents (Table.ofPairs e.items) ∧ d.keys = e.keys)
      ∧ ∀ v w : Value, (v == w → v.kind = w.kind)
        ∧ (v.WellFormed → w.WellFormed → (v == w ↔ v.Equal w)) := by
  intro d e
  have hd : d.WellFormed := wellFormed_run as i
  have he : e.WellFormed := wellFormed_run as j
  refine ⟨Document.beq_iff_count hd he, Document.beq_iff_items hd he, fun t ht => ⟨rfl, ?_⟩,
    Document.beq_iff_hasContents hd he,
    fun v w => ⟨Value.kind_eq_of_beq, Value.beq_iff_equal v w⟩⟩
  rw [Document.hasContents_iff hd ht]
  refine ⟨fun h => ⟨fun key => ?_, h.rel⟩, fun ⟨hk, h⟩ => ⟨fun key => ?_, h⟩⟩
  · exact (hd.mem_order_iff key).trans (h.mem_keys_iff key)
  · exact (hd.mem_order_iff key).symm.trans (hk key)

/-- The same pairs in another order: different documents with the same table. -/
theorem run_equality_reordered :
    let as : List Action := [.call 0 (.set "a" .null), .call 0 (.set "b" (.boolean true)),
      .call 1 (.set "b" (.boolean true)), .call 1 (.set "a" .null)]
    let d : Document := (Representation.documents.run as).2 0
    let e : Document := (Representation.documents.run as).2 1
    ¬ d == e ∧ d.hasContents (Table.ofPairs e.items) := by
  intro as d e
  obtain ⟨hcount, -, htable, -⟩ := run_equality as 0 1
  have ht : Table.ofPairs e.items = [("a", .null), ("b", .boolean true)] := rfl
  have hasc : (Table.ofPairs e.items).Ascending := by
    rw [← OrderedMap.table_ofPairs]
    exact (OrderedMap.wellFormed_ofPairs e.items).ascending_table
  refine ⟨fun h => ?_, ((htable _ hasc).2).2 ⟨fun key => ?_, ?_⟩⟩
  · exact absurd (hcount.1 h).1 (by decide)
  · rw [ht]
    rfl
  · rw [ht]
    intro key v w hv hw
    obtain rfl : v = w := Option.some.inj (hv.symm.trans hw)
    have hmem := Table.mem_of_find? hw
    simp only [List.mem_cons, Prod.mk.injEq, List.not_mem_nil, or_false] at hmem
    rcases hmem with ⟨-, rfl⟩ | ⟨-, rfl⟩
    · rfl
    · rfl

end TypedDoc

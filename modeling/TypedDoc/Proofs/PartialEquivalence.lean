import TypedDoc.Proofs.Equality

/-!
# Equality as a partial equivalence

Equality of values is symmetric and transitive, but a value need not be equal to itself: it is so
exactly if none of the numbers stored in it is a NaN. Equal values differ in the signs of zeros
alone. All of this comes from one equivalence: a value is equal to another exactly if it holds no
NaN and the two are the same once their zeros are positive (`Value.beq_iff_plusZeros`).
-/

namespace TypedDoc

open Numeral (Binary64)

namespace Numeral.Binary64

variable {x y : Binary64}

/-- The number itself, but positive zero in place of the negative one. -/
def plusZero (x : Binary64) : Binary64 := if x = zero true then zero false else x

theorem isZero_iff : x.isZero = true ↔ x = zero true ∨ x = zero false := by
  refine ⟨fun h => ?_, ?_⟩
  · have hx : x = zero x.isNegative := by
      have hnearest := nearest_value (isFinite_of_isZero h)
      rwa [value_eq_zero_iff.2 h, nearest, if_pos rfl, eq_comm] at hnearest
    cases hsign : x.isNegative <;> rw [hsign] at hx <;> simp [hx]
  · rintro (rfl | rfl) <;> rfl

theorem plusZero_eq_iff : x.plusZero = y.plusZero ↔ x = y ∨ x.isZero = true ∧ y.isZero = true := by
  rw [isZero_iff, isZero_iff]
  unfold plusZero
  by_cases hx : x = zero true <;> by_cases hy : y = zero true
  · simp [hx, hy]
  · simp [hx, hy, Ne.symm hy, eq_comm]
  · simp [hx, hy]
  · simp only [hx, hy, ↓reduceIte, false_or]
    exact (or_iff_left_of_imp fun h => h.1.trans h.2.symm).symm

theorem beq_iff_plusZero : (x == y) = true ↔ x.isNaN = false ∧ x.plusZero = y.plusZero := by
  rw [beq_iff, plusZero_eq_iff]
  refine and_congr_right fun hx => ⟨And.right, fun h => ⟨?_, h⟩⟩
  rcases h with rfl | ⟨-, hy⟩
  · exact hx
  · rcases isZero_iff.1 hy with rfl | rfl <;> rfl

end Numeral.Binary64

namespace Value

mutual

/-- The value with each of its numbers changed in its place. -/
def mapNumbers (f : Binary64 → Binary64) : Value → Value
  | number x => number (f x)
  | array items => array (mapItemNumbers f items)
  | document ⟨order, entries⟩ => document ⟨order, mapEntryNumbers f entries⟩
  | reference collection id => reference collection (mapNumbers f id)
  | v => v

def mapItemNumbers (f : Binary64 → Binary64) : List Value → List Value
  | [] => []
  | v :: vs => mapNumbers f v :: mapItemNumbers f vs

def mapEntryNumbers (f : Binary64 → Binary64) : List (String × Value) → List (String × Value)
  | [] => []
  | (k, v) :: rest => (k, mapNumbers f v) :: mapEntryNumbers f rest

end

/-- The value with positive zeros in place of the negative ones. -/
def plusZeros (v : Value) : Value := v.mapNumbers Binary64.plusZero

mutual

/-- The numbers that are stored in a value, at any depth. -/
def numbers : Value → List Binary64
  | number x => [x]
  | array items => itemNumbers items
  | document ⟨_, entries⟩ => entryNumbers entries
  | reference _ id => numbers id
  | _ => []

def itemNumbers : List Value → List Binary64
  | [] => []
  | v :: vs => numbers v ++ itemNumbers vs

def entryNumbers : List (String × Value) → List Binary64
  | [] => []
  | (_, v) :: rest => numbers v ++ entryNumbers rest

end

theorem mem_itemNumbers_iff {vs : List Value} {x : Binary64} :
    x ∈ itemNumbers vs ↔ ∃ v ∈ vs, x ∈ v.numbers := by
  induction vs with
  | nil => simp [itemNumbers]
  | cons v vs ih => simp [itemNumbers, ih]

theorem mem_entryNumbers_iff {es : List (String × Value)} {x : Binary64} :
    x ∈ entryNumbers es ↔ ∃ e ∈ es, x ∈ e.2.numbers := by
  induction es with
  | nil => simp [entryNumbers]
  | cons e es ih => simp [entryNumbers, ih]

theorem mem_numbers_document {d : Document} (hd : d.WellFormed) {x : Binary64} :
    x ∈ (document d).numbers ↔ ∃ v ∈ d.values, x ∈ v.numbers := by
  obtain ⟨order, entries⟩ := d
  rw [numbers, mem_entryNumbers_iff]
  refine ⟨fun ⟨e, he, hx⟩ => ?_, fun ⟨v, hv, hx⟩ => ?_⟩
  · exact ⟨e.2, OrderedMap.mem_values_of_mem (hd.items_perm_entries.mem_iff.2 he), hx⟩
  · obtain ⟨key, hp⟩ := OrderedMap.mem_values_iff.1 hv
    exact ⟨(key, v), hd.items_perm_entries.mem_iff.1 hp, hx⟩

/-- A number is stored in a value exactly if it lies in it. -/
theorem mem_numbers_iff (v : Value) (hv : v.WellFormed) (x : Binary64) :
    x ∈ v.numbers ↔ v.Inner (number x) := by
  induction v using Value.induction with
  | h v ih =>
    have hparts : (∃ w ∈ v.parts, x ∈ w.numbers) ↔ ∃ w ∈ v.parts, w.Inner (number x) :=
      exists_congr fun w => and_congr_right fun hw => ih w hw (hv.of_mem_parts hw)
    rw [inner_iff, ← hparts]
    cases v with
    | array items => simp [numbers, mem_itemNumbers_iff, parts]
    | document d => simp [mem_numbers_document (hv d .self), parts]
    | _ => simp [numbers, parts]

mutual

-- along the first value, as equality itself goes; only numbers are not simply the same
theorem beq_iff_plusZeros : ∀ v w : Value, v.beq w = true ↔
    (∀ x ∈ v.numbers, x.isNaN = false) ∧ v.plusZeros = w.plusZeros
  | .array as, w => by
    cases w <;> simp only [beq, plusZeros, mapNumbers, Bool.false_eq_true, reduceCtorEq, and_false]
    rw [beqItems_iff_plusZeros, numbers, array.injEq]
  | .document ⟨order, entries⟩, w => by
    rcases w with _ | _ | _ | _ | _ | _ | _ | ⟨order', entries'⟩ | _ | _ | _ | _ | _ <;>
      simp only [beq, plusZeros, mapNumbers, Bool.false_eq_true, reduceCtorEq, and_false]
    rw [Bool.and_eq_true, beq_iff_eq, beqTable_iff_plusZeros, numbers, document.injEq,
      OrderedMap.mk.injEq, and_left_comm]
  | .reference c v, w => by
    cases w <;> simp only [beq, plusZeros, mapNumbers, Bool.false_eq_true, reduceCtorEq, and_false]
    rw [Bool.and_eq_true, beq_iff_eq, beq_iff_plusZeros, numbers, reference.injEq, and_left_comm]
    rfl
  | .number x, w => by
    cases w <;> simp [beq, numbers, plusZeros, mapNumbers, Binary64.beq_iff_plusZero]
  | .null, w | .boolean _, w | .integer _, w | .string _, w | .binary _, w | .date _, w
  | .regex _, w | .objectId _, w | .code _, w => by
    cases w <;> simp [beq, numbers, plusZeros, mapNumbers]

theorem beqItems_iff_plusZeros : ∀ as bs : List Value, beqItems as bs = true ↔
    (∀ x ∈ itemNumbers as, x.isNaN = false)
      ∧ mapItemNumbers Binary64.plusZero as = mapItemNumbers Binary64.plusZero bs
  | [], bs => by cases bs <;> simp [beqItems, itemNumbers, mapItemNumbers]
  | _ :: _, [] => by simp [beqItems, mapItemNumbers]
  | a :: as, b :: bs => by
    simp only [beqItems, Bool.and_eq_true, beq_iff_plusZeros a b, beqItems_iff_plusZeros as bs,
      itemNumbers, mapItemNumbers, List.forall_mem_append, List.cons.injEq, plusZeros]
    tauto

theorem beqTable_iff_plusZeros : ∀ t t' : List (String × Value), beqTable t t' = true ↔
    (∀ x ∈ entryNumbers t, x.isNaN = false)
      ∧ mapEntryNumbers Binary64.plusZero t = mapEntryNumbers Binary64.plusZero t'
  | [], t' => by cases t' <;> simp [beqTable, entryNumbers, mapEntryNumbers]
  | _ :: _, [] => by simp [beqTable, mapEntryNumbers]
  | (k, v) :: t, (k', v') :: t' => by
    simp only [beqTable, Bool.and_eq_true, beq_iff_eq, beq_iff_plusZeros v v',
      beqTable_iff_plusZeros t t', entryNumbers, mapEntryNumbers, List.forall_mem_append,
      List.cons.injEq, Prod.mk.injEq, plusZeros]
    tauto

end

theorem beq_self_iff (v : Value) : (v == v) = true ↔ ∀ x ∈ v.numbers, x.isNaN = false :=
  (beq_iff_plusZeros v v).trans (and_iff_left rfl)

theorem beq_trans {u v w : Value} (huv : (u == v) = true) (hvw : (v == w) = true) :
    (u == w) = true := by
  obtain ⟨hu, heq⟩ := (beq_iff_plusZeros u v).1 huv
  obtain ⟨-, heq'⟩ := (beq_iff_plusZeros v w).1 hvw
  exact (beq_iff_plusZeros u w).2 ⟨hu, heq.trans heq'⟩

/-- Equality of values is symmetric and transitive, and it is reflexive for a value exactly if no
number in it is a NaN, whether in an array, in a document or in the identifier of a reference.
Equal values are of kinds with the same name, and the same once their zeros are positive. This is so
although the tables of documents are compared by their sizes and by one look-up for each entry of
the first one. -/
theorem beq_partial_equivalence :
    (∀ a b : Value, a == b → b == a)
      ∧ (∀ a b c : Value, a == b → b == c → a == c)
      ∧ (∀ a : Value, a == a ↔ ∀ x ∈ a.numbers, x.isNaN = false)
      ∧ (∀ a : Value, a.WellFormed → ∀ x, x ∈ a.numbers ↔ a.Inner (number x))
      ∧ (∀ a b : Value, a == b → a.kind.name = b.kind.name ∧ a.plusZeros = b.plusZeros)
      ∧ ∀ d e : Document, d.WellFormed → e.WellFormed → (document d == document e ↔
        d.order = e.order ∧ d.entries.length = e.entries.length
          ∧ ∀ p ∈ d.entries, ∃ w, e.get? p.1 = some w ∧ p.2 == w) := by
  refine ⟨fun _ _ => beq_symm, fun _ _ _ => beq_trans, beq_self_iff, mem_numbers_iff,
    fun a b h => ?_, fun d e hd he => Document.beq_iff_count hd he⟩
  exact ⟨congrArg Kind.name (kind_eq_of_beq h), ((beq_iff_plusZeros a b).1 h).2⟩

/-- Zeros of both signs in an array and in the identifier of a reference. -/
theorem beq_partial_equivalence_zeros :
    let d : Document := .ofPairs [("a", array [number (.zero true)]),
      ("b", reference "c" (document (.ofPairs [("k", number (.zero false))])))]
    let e : Document := .ofPairs [("a", array [number (.zero false)]),
      ("b", reference "c" (document (.ofPairs [("k", number (.zero true))])))]
    document e == document d ∧ document d == document d
      ∧ (document d).plusZeros = (document e).plusZeros
      ∧ (∀ x, (document d).Inner (number x) → x.isNaN = false)
      ∧ ∀ p ∈ d.entries, ∃ w, e.get? p.1 = some w ∧ p.2 == w := by
  intro d e
  obtain ⟨hsymm, htrans, hself, hinner, hsame, hcount⟩ := beq_partial_equivalence
  have hde : document d == document e := rfl
  have hed : document e == document d := hsymm _ _ hde
  have hdd : document d == document d := htrans _ _ _ hde hed
  have hleaf : ∀ x, WellFormed (number x) := fun x =>
    wellFormed_iff.2 ⟨by rintro d ⟨⟩, by simp [parts]⟩
  have hd : (document d).WellFormed := by
    refine wellFormed_pair _ _ ?_ ?_
    · exact wellFormed_iff.2 ⟨by rintro d ⟨⟩, by simpa [parts] using hleaf _⟩
    · exact wellFormed_iff.2 ⟨by rintro d ⟨⟩, by simpa [parts] using wellFormed_single "k" (hleaf _)⟩
  have he : e.WellFormed := OrderedMap.wellFormed_ofPairs _
  refine ⟨hed, hdd, (hsame _ _ hde).2, fun x hx => ?_, ((hcount d e (hd d .self) he).1 hde).2.2⟩
  exact (hself _).1 hdd x ((hinner _ hd x).2 hx)

end Value

end TypedDoc

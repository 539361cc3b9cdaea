import TypedDoc.Proofs.Decoding
import TypedDoc.Proofs.Items
import TypedDoc.Proofs.Scalars
import TypedDoc.Proofs.Views

/-!
# Elements for documents

Every document has an element tree that stands for it (`Document.toElement`): a child for each pair,
named by its key, and the items of an array named by their positions. A tree that fits the limits is
decoded to the very document that it was made for, with the same keys in the same order and the same
values at every level; of a number that is a NaN only that is kept (`Decode.children_toElement`).
Positions are read as numbers of 64 bits, so the limit on arrays must not exceed those.
The depth that is left for a value is what bounds its nesting on the way down, so the two are
carried through the induction together (`Decode.value_toElement`).
-/

namespace TypedDoc

open Numeral (Binary64)

namespace Value

mutual

/-- A value in which every NaN is the one that is read from text. -/
def canonical : Value → Value
  | number x => number x.canonical
  | array items => array (canonicalItems items)
  | document ⟨order, entries⟩ => document ⟨order, canonicalEntries entries⟩
  | reference collection id => reference collection (canonical id)
  | null => null
  | boolean b => boolean b
  | integer n => integer n
  | string s => string s
  | binary b => binary b
  | date t => date t
  | regex r => regex r
  | objectId o => objectId o
  | code source => code source

def canonicalItems : List Value → List Value
  | [] => []
  | v :: vs => canonical v :: canonicalItems vs

def canonicalEntries : List (String × Value) → List (String × Value)
  | [] => []
  | (k, v) :: rest => (k, canonical v) :: canonicalEntries rest

end

theorem canonicalItems_eq (vs : List Value) : canonicalItems vs = vs.map canonical :=
  eq_map_of_cons rfl (fun _ _ => rfl) vs

theorem canonicalEntries_eq (es : List (String × Value)) :
    canonicalEntries es = es.map fun e => (e.1, canonical e.2) :=
  eq_map_of_cons rfl (fun _ _ => rfl) es

end Value

/-- Things with the names of their positions, from some position on. -/
def positions {α : Type} (i : Nat) : List α → List (String × α)
  | [] => []
  | a :: as => (toString i, a) :: positions (i + 1) as

/-- An element as its parent keeps it. -/
def Element.keyed (p : String × Element) : Element := p.2.withAttribute "name" p.1

namespace Element

theorem lookup_setAttribute (attributes : List (String × String)) (key value : String) :
    (setAttribute attributes key value).lookup key = some value := by
  induction attributes with
  | nil => simp [setAttribute]
  | cons a attributes ih =>
    unfold setAttribute
    split_ifs with h
    · simp [h]
    · rw [List.lookup_cons, beq_false_of_ne (Ne.symm h), ih]

theorem name_keyed (p : String × Element) : (keyed p).toField.name = some p.1 :=
  lookup_setAttribute p.2.attributes "name" p.1

end Element

namespace Value

mutual

/-- An element that stands for a value. -/
def toElement : Value → Element
  | null => .bare "null"
  | boolean b => (Element.bare "boolean").withText (if b then "true" else "false")
  | integer n => (Element.bare "int").withText (Numeral.Integer.text n)
  | number x => (Element.bare "number").withText (numberLayout.text x)
  | string s => (Element.bare "string").withText s
  | binary b => (Element.bare "binary").withText b.base64
  | array items =>
    (Element.bare "array").withChildren ((positions 0 (itemElements items)).map .keyed)
  | document ⟨order, entries⟩ =>
    (Element.bare "doc").withChildren ((Table.arrange (entryElements entries) order).map .keyed)
  | date t => (Element.bare "date").withText (toString t.millis)
  | regex r =>
    (Element.bare "regex").withChildren
      [(Element.bare "pattern").withText r.pattern,
        (Element.bare "options").withText r.options.letters]
  | objectId o => (Element.bare "oid").withText o.hex
  | reference collection id =>
    (Element.bare "ref").withChildren [(Element.bare "ns").withText collection, toElement id]
  | code source => (Element.bare "code").withText source

def itemElements : List Value → List Element
  | [] => []
  | v :: vs => toElement v :: itemElements vs

def entryElements : List (String × Value) → List (String × Element)
  | [] => []
  | (k, v) :: rest => (k, toElement v) :: entryElements rest

end

theorem itemElements_eq (vs : List Value) : itemElements vs = vs.map toElement :=
  eq_map_of_cons rfl (fun _ _ => rfl) vs

theorem entryElements_eq (es : List (String × Value)) :
    entryElements es = es.map fun e => (e.1, toElement e.2) :=
  eq_map_of_cons rfl (fun _ _ => rfl) es

end Value

namespace Document

/-- A document in which every NaN is the one that is read from text. -/
def canonical (d : Document) : Document := d.mapValues Value.canonical

/-- An element whose children stand for the values of a document. -/
def toElement (d : Document) : Element := (Value.document d).toElement

end Document

/-! ## Positions -/

section Positions

variable {α β : Type}

theorem positions_map (f : α → β) (as : List α) (i : Nat) :
    positions i (as.map f) = (positions i as).map fun p => (p.1, f p.2) := by
  induction as generalizing i with
  | nil => rfl
  | cons a as ih =>
    rw [List.map_cons, positions, positions, ih, List.map_cons]

theorem exists_of_mem_positions {as : List α} {i : Nat} {p : String × α} (h : p ∈ positions i as) :
    ∃ j, i ≤ j ∧ p.1 = toString j ∧ p.2 ∈ as := by
  induction as generalizing i with
  | nil => cases h
  | cons a as ih =>
    rcases List.mem_cons.1 h with rfl | h
    · exact ⟨i, le_rfl, rfl, List.mem_cons_self⟩
    · obtain ⟨j, hj, hp, ha⟩ := ih h
      exact ⟨j, by omega, hp, List.mem_cons_of_mem a ha⟩

theorem toString_inj {i j : Nat} (h : toString i = toString j) : i = j := by
  have hdigits : Nat.toDigits 10 i = Nat.toDigits 10 j := by
    rw [← Nat.toList_repr, ← Nat.toList_repr]
    exact congrArg String.toList h
  rw [← Nat.ofDigitChars_ten_toDigits (n := i), hdigits, Nat.ofDigitChars_ten_toDigits]

theorem nodup_positions (as : List α) (i : Nat) : ((positions i as).map (·.1)).Nodup := by
  induction as generalizing i with
  | nil => exact .nil
  | cons a as ih =>
    refine List.nodup_cons.2 ⟨fun hm => ?_, ih (i + 1)⟩
    obtain ⟨p, hp, heq⟩ := List.mem_map.1 hm
    obtain ⟨j, hj, hname, -⟩ := exists_of_mem_positions hp
    have hij := toString_inj (hname.symm.trans heq)
    omega

end Positions

namespace Value

theorem items_canonical (d : Document) :
    d.canonical.items = d.items.map fun p => (p.1, p.2.canonical) :=
  OrderedMap.items_mapValues _ d

theorem canonical_document (d : Document) : (document d).canonical = .document d.canonical := by
  obtain ⟨order, entries⟩ := d
  rw [canonical, canonicalEntries_eq]
  rfl

/-- Without NaNs a value is as it was. -/
theorem canonical_eq_self {v : Value} (hd : ∀ d, v.Inner (document d) → d.WellFormed)
    (hx : ∀ x, v.Inner (number x) → x.isNaN = false) : v.canonical = v := by
  induction v using Value.induction with
  | h v ih =>
    have hparts : ∀ w ∈ v.parts, w.canonical = w := fun w hw =>
      ih w hw (fun d hi => hd d (.of_part hw hi)) fun x hi => hx x (.of_part hw hi)
    cases v with
    | number x => simp [canonical, Binary64.canonical, hx x .self]
    | array items =>
      rw [canonical, canonicalItems_eq]
      exact congrArg array ((List.map_congr_left hparts).trans (List.map_id' _))
    | document d =>
      have hmap : (d.items.map fun p => (p.1, p.2.canonical)) = d.items := by
        refine (List.map_congr_left fun p hp => ?_).trans (List.map_id' _)
        exact congrArg (p.1, ·) (hparts p.2 (OrderedMap.mem_values_of_mem hp))
      rw [canonical_document]
      exact congrArg document (OrderedMap.ext_items ((hd d .self).mapValues _) (hd d .self)
        ((items_canonical d).trans hmap))
    | reference collection id => rw [canonical, hparts id List.mem_cons_self]
    | _ => rfl

theorem toElement_document (d : Document) : (document d).toElement =
    (Element.bare "doc").withChildren (d.items.map fun p => .keyed (p.1, p.2.toElement)) := by
  obtain ⟨order, entries⟩ := d
  rw [toElement, entryElements_eq, Table.arrange_map, List.map_map]
  rfl

theorem toElement_array (items : List Value) : (array items).toElement =
    (Element.bare "array").withChildren
      ((positions 0 items).map fun p => .keyed (p.1, p.2.toElement)) := by
  rw [toElement, itemElements_eq, positions_map, List.map_map]
  rfl

end Value

namespace Decode

namespace Dense

theorem place_size (items : Array Value) (v : Value) : place items items.size v = items.push v := by
  unfold place
  simp

theorem foldlM_positions {limit : Nat} (h : limit ≤ 1 <<< 64) (vs : List Value)
    (items : Array Value) (hlen : items.size + vs.length ≤ limit) :
    (positions items.size vs).foldlM (step limit) items = .ok (items ++ vs.toArray) := by
  induction vs generalizing items with
  | nil => simp [positions, pure, Except.pure]
  | cons v vs ih =>
    rw [List.length_cons] at hlen
    have hstep : step limit items (toString items.size, v) = .ok (items.push v) := by
      refine step_eq_ok_iff.2 ⟨items.size, Numeral.Integer.isPosition_toString (by omega),
        by omega, (place_size items v).symm⟩
    have hrest := ih (items.push v) (by rw [Array.size_push]; omega)
    rw [Array.size_push] at hrest
    rw [positions, List.foldlM_cons, hstep]
    show List.foldlM (step limit) (items.push v) (positions (items.size + 1) vs) = _
    rw [hrest]
    simp

theorem ofPairs_positions {limit : Nat} (h : limit ≤ 1 <<< 64) {vs : List Value}
    (hlen : vs.length ≤ limit) : ofPairs limit (positions 0 vs) = .ok vs := by
  have hfold := foldlM_positions h vs #[] (by simpa using hlen)
  unfold ofPairs
  rw [show (0 : Nat) = (#[] : Array Value).size from rfl, hfold]
  simp [Except.map]

end Dense

/-! ## Reading back -/

variable {limits : Limits} {n : Nat}

theorem value_keyed (p : String × Element) :
    value limits n (Element.keyed p).toField = value limits n p.2.toField := by
  obtain ⟨key, tag, attributes, text, cs⟩ := p
  rw [value.eq_def, value.eq_def]
  rfl

/-- Values that are read back one by one, each under its name, make the document of their pairs. -/
theorem document_keyed {tag : String} {ps : List (String × Value)}
    (hps : ∀ p ∈ ps, n + 1 ≤ limits.maxDepth ∧
      value limits (n + 1) p.2.toElement.toField = .ok p.2.canonical) :
    document limits n tag (Element.toFields (ps.map fun p => .keyed (p.1, p.2.toElement))) =
      .ok (.ofPairs (ps.map fun p => (p.1, p.2.canonical))) := by
  rw [Element.toFields_eq, List.map_map]
  refine document_eq_ok_iff.2 ⟨fun hne => ?_, _, ?_, rfl⟩
  · obtain ⟨p, hp⟩ := List.exists_mem_of_ne_nil ps fun h => hne (by rw [h, List.map_nil])
    exact (hps p hp).1
  · rw [List.forall₂_map_left_iff, List.forall₂_map_right_iff, List.forall₂_same]
    intro p hp
    exact ⟨Element.name_keyed _, (value_keyed _).trans (hps p hp).2⟩

theorem document_toElement {tag : String} {d : Document} (hd : d.WellFormed)
    (hread : ∀ v ∈ d.values, n + 1 ≤ limits.maxDepth ∧
      value limits (n + 1) v.toElement.toField = .ok v.canonical) :
    document limits n tag d.toElement.toField.children = .ok d.canonical := by
  have hpairs : .ofPairs (d.items.map fun p => (p.1, p.2.canonical)) = d.canonical := by
    rw [← OrderedMap.items_mapValues, OrderedMap.ofPairs_items (hd.mapValues _)]
    rfl
  rw [Document.toElement, Value.toElement_document, ← hpairs]
  exact document_keyed fun p hp => hread p.2 (OrderedMap.mem_values_of_mem hp)

theorem value_array_toElement (h : limits.maxArrayLength ≤ 1 <<< 64) {items : List Value}
    (hlen : items.length ≤ limits.maxArrayLength)
    (hread : ∀ v ∈ items, n + 1 ≤ limits.maxDepth ∧
      value limits (n + 1) v.toElement.toField = .ok v.canonical) :
    value limits n (Value.array items).toElement.toField = .ok (Value.array items).canonical := by
  have hdocument : document limits n "array" (Value.array items).toElement.toField.children =
      .ok (.ofPairs (positions 0 (items.map Value.canonical))) := by
    rw [Value.toElement_array, positions_map]
    refine document_keyed fun p hp => ?_
    obtain ⟨-, -, -, hv⟩ := exists_of_mem_positions hp
    exact hread p.2 hv
  have hdense : Dense.ofPairs limits.maxArrayLength
      (OrderedMap.ofPairs (positions 0 (items.map Value.canonical))).items =
        .ok (items.map Value.canonical) := by
    rw [OrderedMap.items_ofPairs_of_nodup (nodup_positions _ 0)]
    exact Dense.ofPairs_positions h (by rwa [List.length_map])
  rw [value_array rfl, Value.canonical, Value.canonicalItems_eq]
  exact bind_eq_ok_iff.2 ⟨_, hdocument, bind_eq_ok_iff.2 ⟨_, hdense, rfl⟩⟩

/-- A value that fits into the depth that is left is read back. The induction is on the value. -/
theorem value_toElement (h : limits.maxArrayLength ≤ 1 <<< 64) : ∀ (v : Value) (n k : Nat),
    n + k ≤ limits.maxDepth → v.Fits k limits.maxArrayLength →
      value limits n v.toElement.toField = .ok v.canonical := by
  intro v
  induction v using Value.induction with
  | h v ih =>
    intro n k hk hv
    obtain ⟨hproper, hregex, hparts⟩ := Value.fits_iff.1 hv
    have hread : ∀ w ∈ v.parts, n + 1 ≤ limits.maxDepth ∧
        value limits (n + 1) w.toElement.toField = .ok w.canonical := by
      intro w hw
      obtain ⟨hpos, hw'⟩ := hparts w hw
      exact ⟨by omega, ih w hw (n + 1) (k - 1) (by omega) hw'⟩
    cases v with
    | null => exact value_scalar rfl rfl
    | boolean b => cases b <;> exact value_scalar rfl rfl
    | string s => exact value_scalar rfl rfl
    | code source => exact value_scalar rfl rfl
    | integer m =>
      exact value_scalar rfl (congrArg some (map_eq_ok_iff.2 ⟨m, integer_text _ m, rfl⟩))
    | number x =>
      exact value_scalar rfl (congrArg some (map_eq_ok_iff.2 ⟨_, number_text _ _ x, rfl⟩))
    | date t =>
      exact value_scalar rfl (congrArg some (map_eq_ok_iff.2 ⟨t, date_millis _ t, rfl⟩))
    | objectId o =>
      exact value_scalar rfl (congrArg some (map_eq_ok_iff.2 ⟨o, ObjectId.read_hex o, rfl⟩))
    | binary b =>
      have hbytes := binary_base64 hproper
      exact value_scalar rfl (congrArg some (map_eq_ok_iff.2 ⟨b, hbytes, rfl⟩))
    | document d =>
      rw [value_document rfl, Value.canonical_document]
      exact map_eq_ok_iff.2 ⟨_, document_toElement hproper hread, rfl⟩
    | array items => exact value_array_toElement h hproper hread
    | reference collection id =>
      obtain ⟨hdepth, hid⟩ := hread id List.mem_cons_self
      have hcollection : value limits (n + 1) ((Element.bare "ns").withText collection).toField =
          .ok (.string collection) := value_scalar rfl rfl
      rw [value_reference rfl rfl]
      simp only [bind_eq_ok_iff, descend_eq_ok_iff]
      exact ⟨_, ⟨hdepth, rfl⟩, _, hcollection, collection, rfl, _, hid, rfl⟩
    | regex r =>
      have hdepth := hregex rfl
      have hpattern : value limits (n + 1) ((Element.bare "pattern").withText r.pattern).toField =
          .ok (.string r.pattern) := value_scalar rfl rfl
      have hoptions : options ((Element.bare "options").withText r.options.letters).toField =
          .ok r.options :=
        options_eq_ok_iff.2 ⟨rfl, (RegexOptions.ofLetters_letters hproper).symm⟩
      rw [value_regex rfl rfl]
      simp only [bind_eq_ok_iff, descend_eq_ok_iff]
      exact ⟨_, ⟨by omega, rfl⟩, _, hpattern, r.pattern, rfl, _, hoptions, rfl⟩

/-- A document that fits the limits is decoded from its element, the same but for its NaNs. -/
theorem children_toElement (h : limits.maxArrayLength ≤ 1 <<< 64) {d : Document}
    (hd : (Value.document d).Fits limits.maxDepth limits.maxArrayLength) :
    children limits d.toElement.toField = .ok d.canonical
      ∧ ((∀ x, (Value.document d).Inner (.number x) → x.isNaN = false) → d.canonical = d) := by
  refine ⟨?_, fun hx => ?_⟩
  · obtain ⟨hproper, -, hparts⟩ := Value.fits_iff.1 hd
    refine document_toElement hproper fun v hv => ?_
    obtain ⟨hpos, hv'⟩ := hparts v hv
    exact ⟨by omega, value_toElement h v (0 + 1) (limits.maxDepth - 1) (by omega) hv'⟩
  · have hself := Value.canonical_eq_self (fun _ hi => hd.proper _ hi) hx
    rw [Value.canonical_document] at hself
    exact Value.document.inj hself

/-- Nested as deep as the limit allows, with a NaN that is not the one that is read. -/
theorem children_toElement_nan :
    children ⟨2, 2⟩ (Document.toElement (.ofPairs
        [("b", .array [.array [], .number (.nan true)]), ("a", .boolean true)])).toField =
      .ok (.ofPairs [("b", .array [.array [], .number (.nan false)]), ("a", .boolean true)]) := by
  have hitems : (Value.array [.array [], .number (.nan true)]).Fits 1 2 := by
    refine Value.fits_iff.2 ⟨le_rfl, nofun, fun w hw => ⟨le_rfl, ?_⟩⟩
    rcases List.mem_pair.1 hw with rfl | rfl
    · exact Value.fits_of_parts_nil (Nat.zero_le 2) rfl (by rintro ⟨⟩)
    · exact Value.fits_of_parts_nil trivial rfl (by rintro ⟨⟩)
  refine (children_toElement (by decide)
    (Value.fits_iff.2 ⟨OrderedMap.wellFormed_ofPairs _, nofun, fun w hw => ⟨by decide, ?_⟩⟩)).1
  rcases List.mem_pair.1 hw with rfl | rfl
  · exact hitems
  · exact Value.fits_of_parts_nil trivial rfl (by rintro ⟨⟩)

end Decode

end TypedDoc

import TypedDoc.Proofs.Calendar
import TypedDoc.Proofs.Encoding
import TypedDoc.Proofs.Rendering

/-!
# What JSON tells of a document

Seven kinds of values become objects, which a first key with a dollar sign marks. Where no key of a
document starts with a dollar sign, the JSON tree tells the kind of a value (`Value.kind_toJson`),
and for each kind its contents, but for the bits of a NaN: bytes from their base64 text, a subtype
and an identifier from their digits, options from their letters, and a moment from its text. So
documents with the same JSON tree are the same but for their NaNs (`Document.toJson_eq_iff`).
-/

namespace TypedDoc

open Numeral (Binary64)

namespace Json

/-- The first keys of the objects that stand for values other than documents. -/
def marks : List (String × Kind) :=
  [("$numberDouble", .number), ("$binary", .binary), ("$date", .date),
    ("$regularExpression", .regex), ("$oid", .objectId), ("$ref", .reference), ("$code", .code)]

theorem eq_of_object_eq {key : String} {j j' : Json} (h : object [(key, j)] = object [(key, j')]) :
    j = j' := by
  simpa only [object.injEq, List.cons.injEq, Prod.mk.injEq, true_and, and_true] using h

/-- The kind of the values that a tree stands for. -/
def kind : Json → Kind
  | null => .null
  | boolean _ => .boolean
  | integer _ => .integer
  | number _ => .number
  | string _ => .string
  | array _ => .array
  | object members => (members.head?.bind fun m => marks.lookup m.1).getD .document

theorem marks_reserved : ∀ m ∈ marks, m.1.toList.head? = some '$' := by decide

theorem lookup_marks {key : String} (h : key.toList.head? ≠ some '$') :
    marks.lookup key = none := by
  refine List.lookup_eq_none_iff.2 fun m hm => ?_
  rw [bne_iff_ne]
  rintro rfl
  exact h (marks_reserved m hm)

/-- The floating-point number that a tree stands for. -/
def number? : Json → Option Binary64
  | number x => some x
  | object [(_, string name)] =>
    some (if name = "NaN" then .nan false else .infinity (name = "-Infinity"))
  | _ => none

theorem number?_ofNumber (x : Binary64) : (ofNumber x).number? = some x.canonical := by
  unfold ofNumber Binary64.canonical
  by_cases hfinite : x.isFinite = true
  · rw [if_pos hfinite, Binary64.isNaN_of_isFinite hfinite]
    rfl
  · rw [if_neg hfinite]
    by_cases hnan : x.isNaN = true
    · rw [if_pos hnan, if_pos hnan]
      rfl
    · rw [if_neg hnan, if_neg hnan]
      rw [Bool.not_eq_true] at hfinite hnan
      rw [Binary64.eq_infinity hfinite hnan]
      cases x.isNegative <;> rfl

theorem ofNumber_canonical (x : Binary64) : ofNumber x.canonical = ofNumber x := by
  unfold Binary64.canonical
  split_ifs with hnan
  · rw [ofNumber, ofNumber, if_neg (Binary64.not_isFinite_of_isNaN hnan), if_pos hnan]
    rfl
  · rfl

end Json

theorem Text.Hex.encode_injective : Function.Injective Text.Hex.encode := by
  intro bytes bytes' h
  have hdecode := Text.Hex.decode?_encode bytes
  rw [h, Text.Hex.decode?_encode] at hdecode
  exact (Option.some.inj hdecode).symm

theorem Text.Base64.encode_injective : Function.Injective Text.Base64.encode := by
  intro bytes bytes' h
  have hdecode := Text.Base64.decode_encode bytes
  rw [h, Text.Base64.decode_encode] at hdecode
  exact (Except.ok.inj hdecode).symm

theorem Binary.eq_of_base64_eq {b b' : Binary} (hsubtype : b.subtype = b'.subtype)
    (h : b.base64 = b'.base64) : b = b' := by
  obtain ⟨bytes, subtype⟩ := b
  obtain ⟨bytes', subtype'⟩ := b'
  obtain rfl : subtype = subtype' := hsubtype
  exact congrArg (Binary.mk · subtype) (Text.Base64.encode_injective (String.ofList_inj.1 h))

theorem Binary.toJson_injective : Function.Injective Binary.toJson := by
  intro b b' h
  simp only [toJson, Json.object.injEq, List.cons.injEq, Prod.mk.injEq, Json.string.injEq,
    String.ofList_inj, true_and, and_true] at h
  exact eq_of_base64_eq (List.cons.inj (Text.Hex.encode_injective h.2)).1 h.1

theorem ObjectId.hex_injective : Function.Injective ObjectId.hex := by
  intro o o' h
  have hread := ObjectId.read_hex o
  rw [h, ObjectId.read_hex] at hread
  exact (Except.ok.inj hread).symm

theorem Regex.eq_of_letters_eq {r r' : Regex} (hr : r.options.unknown = 0)
    (hr' : r'.options.unknown = 0) (hpattern : r.pattern = r'.pattern)
    (hletters : r.options.letters = r'.options.letters) : r = r' := by
  obtain ⟨pattern, options⟩ := r
  obtain ⟨pattern', options'⟩ := r'
  obtain rfl : pattern = pattern' := hpattern
  exact congrArg (Regex.mk pattern) (RegexOptions.eq_of_letters_eq hr hr' hletters)

theorem Regex.eq_of_toJson {r r' : Regex} (hr : r.options.unknown = 0)
    (hr' : r'.options.unknown = 0) (h : r.toJson = r'.toJson) : r = r' := by
  simp only [toJson, Json.object.injEq, List.cons.injEq, Prod.mk.injEq, Json.string.injEq,
    true_and, and_true] at h
  exact eq_of_letters_eq hr hr' h.1 h.2

namespace Value

/-- The keys of a document do not start with a dollar sign, and a pattern has known options. -/
def Unmarked : Value → Prop
  | document d => d.WellFormed ∧ ∀ k ∈ d.order, k.toList.head? ≠ some '$'
  | regex r => r.options.unknown = 0
  | _ => True

/-- No key in a value starts with a dollar sign, not even in the identifier of a reference, and all
patterns have known options only. -/
def Unreserved (v : Value) : Prop := ∀ w, v.Inner w → w.Unmarked

theorem Unreserved.of_mem_parts {v w : Value} (h : v.Unreserved) (hw : w ∈ v.parts) :
    w.Unreserved := fun u hu => h u (.of_part hw hu)

theorem kind_toJson {v : Value} (h : v.Unmarked) : v.toJson.kind = v.kind := by
  cases v with
  | document d =>
    obtain ⟨hd, hkeys⟩ := h
    rw [toJson_document]
    rcases hitems : OrderedMap.items d with _ | ⟨p, ps⟩
    · rfl
    · have hp : p.1 ∈ d.order := by
        rw [← hd.keys_items, hitems]
        exact List.mem_cons_self
      simp only [Json.kind, List.map_cons, List.head?_cons, Option.bind_some,
        Json.lookup_marks (hkeys p.1 hp), Option.getD_none, kind]
  | number x =>
    rw [toJson, Json.ofNumber]
    split
    · rfl
    · rfl
  | _ => rfl

theorem kind_eq_of_toJson_eq {v w : Value} (hv : v.Unmarked) (hw : w.Unmarked)
    (h : v.toJson = w.toJson) : v.kind = w.kind := by
  rw [← kind_toJson hv, h, kind_toJson hw]

/-- Documents are the same but for their NaNs if their pairs are. -/
theorem document_canonical_eq_iff {d e : Document} (hd : d.WellFormed) (he : e.WellFormed) :
    d.canonical = e.canonical ↔
      List.Forall₂ (fun p q => p.1 = q.1 ∧ p.2.canonical = q.2.canonical) d.items e.items := by
  have hitems : d.canonical = e.canonical ↔ d.canonical.items = e.canonical.items :=
    ⟨congrArg OrderedMap.items, OrderedMap.ext_items (hd.mapValues _) (he.mapValues _)⟩
  rw [hitems, items_canonical, items_canonical, map_eq_map_iff_forall₂]
  simp only [Prod.mk.injEq]

theorem canonical_eq_of_toJson_eq : ∀ v w : Value, v.Unreserved → w.Unreserved →
    v.toJson = w.toJson → v.canonical = w.canonical := by
  intro v
  induction v using Value.induction with
  | h v ih =>
    intro w hv hw h
    have hkind := kind_eq_of_toJson_eq (hv v .self) (hw w .self) h
    have hparts : ∀ a ∈ v.parts, ∀ b ∈ w.parts, a.toJson = b.toJson →
        a.canonical = b.canonical :=
      fun a ha b hb => ih a ha b (hv.of_mem_parts ha) (hw.of_mem_parts hb)
    -- the trees tell the kind, so what is left is one case for each kind
    cases sameKind_of_kind_eq hkind with
    | null => rfl
    | boolean b c => rw [Json.boolean.inj h]
    | integer m n => rw [Json.integer.inj h]
    | number x y =>
      have hnumber := congrArg Json.number? h
      rw [toJson, toJson, Json.number?_ofNumber, Json.number?_ofNumber] at hnumber
      rw [canonical, canonical, Option.some.inj hnumber]
    | string s t => rw [Json.string.inj h]
    | binary b c => rw [Binary.toJson_injective h]
    | array as bs =>
      rw [toJson_array, toJson_array, Json.array.injEq, map_eq_map_iff_forall₂] at h
      rw [canonical, canonical, canonicalItems_eq, canonicalItems_eq]
      exact congrArg array (map_eq_map_iff_forall₂.2 (forall₂_imp_of_mem hparts h))
    | document d e =>
      rw [toJson_document, toJson_document, Json.object.injEq, map_eq_map_iff_forall₂] at h
      rw [canonical_document, canonical_document]
      refine congrArg document ((document_canonical_eq_iff (hv _ .self).1 (hw _ .self).1).2 ?_)
      refine forall₂_imp_of_mem (fun p hp q hq hpq => ?_) h
      obtain ⟨hkey, hvalue⟩ := Prod.mk.inj hpq
      exact ⟨hkey, hparts p.2 (OrderedMap.mem_values_of_mem hp) q.2
        (OrderedMap.mem_values_of_mem hq) hvalue⟩
    | date t u =>
      have htext := Json.string.inj (Json.eq_of_object_eq h)
      rw [String.append_left_inj] at htext
      rw [Timestamp.text_injective htext]
    | regex r s => rw [Regex.eq_of_toJson (hv _ .self) (hw _ .self) h]
    | objectId o p => rw [ObjectId.hex_injective (Json.string.inj (Json.eq_of_object_eq h))]
    | reference b c v w =>
      simp only [toJson, Json.object.injEq, List.cons.injEq, Prod.mk.injEq, Json.string.injEq,
        true_and, and_true] at h
      rw [canonical, canonical, h.1, hparts v List.mem_cons_self w List.mem_cons_self h.2]
    | code s t => rw [Json.string.inj (Json.eq_of_object_eq h)]

theorem toJson_canonical (v : Value) : v.canonical.toJson = v.toJson := by
  induction v using Value.induction with
  | h v ih =>
    cases v with
    | number x => exact Json.ofNumber_canonical x
    | array items =>
      rw [canonical, canonicalItems_eq, toJson_array, toJson_array, List.map_map]
      exact congrArg Json.array (List.map_congr_left ih)
    | document d =>
      rw [canonical_document, toJson_document, toJson_document]
      refine congrArg Json.object ?_
      rw [items_canonical, List.map_map]
      refine List.map_congr_left fun p hp => congrArg (p.1, ·) (ih p.2 ?_)
      exact OrderedMap.mem_values_of_mem hp
    | reference collection id =>
      rw [canonical, toJson, toJson, ih id List.mem_cons_self]
    | _ => rfl

theorem toJson_eq_toJson_iff {v w : Value} (hv : v.Unreserved) (hw : w.Unreserved) :
    v.toJson = w.toJson ↔ v.canonical = w.canonical :=
  ⟨canonical_eq_of_toJson_eq v w hv hw, fun h => by
    rw [← toJson_canonical v, h, toJson_canonical w]⟩

theorem unreserved_iff {v : Value} :
    v.Unreserved ↔ v.Unmarked ∧ ∀ w ∈ v.parts, w.Unreserved := forall_inner_iff

theorem unreserved_ofPairs {ps : List (String × Value)}
    (h : ∀ p ∈ ps, p.1.toList.head? ≠ some '$' ∧ p.2.Unreserved) :
    (document (.ofPairs ps)).Unreserved := by
  refine unreserved_iff.2 ⟨⟨OrderedMap.wellFormed_ofPairs ps, fun k hk => ?_⟩, fun w hw => ?_⟩
  · rw [OrderedMap.order_ofPairs, List.mem_eraseDups] at hk
    obtain ⟨p, hp, rfl⟩ := List.mem_map.1 hk
    exact (h p hp).1
  · obtain ⟨p, hp, rfl⟩ := OrderedMap.mem_of_mem_values_ofPairs hw
    exact (h p hp).2

end Value

/-- Documents without reserved keys and unknown options have the same JSON tree exactly if they are
the same but for their NaNs: the same keys in the same order, with values of which that is true
again. An integer is not taken for a floating-point number, nor one zero for the other, nor an
identifier for a string, nor one subtype for another. -/
theorem Document.toJson_eq_iff {d e : Document} (hd : (Value.document d).Unreserved)
    (he : (Value.document e).Unreserved) :
    (d.toJson = e.toJson ↔ d.canonical = e.canonical)
      ∧ (d.toJson = e.toJson → d.keys = e.keys
        ∧ List.Forall₂ (fun v w => v.canonical = w.canonical) d.values e.values)
      ∧ ((∀ x, (Value.document d).Inner (.number x) → x.isNaN = false) →
        (∀ x, (Value.document e).Inner (.number x) → x.isNaN = false) →
        d.toJson = e.toJson → d = e)
      ∧ (∀ n x, (Value.integer n).toJson ≠ (Value.number x).toJson)
      ∧ (Value.number (.zero true)).toJson ≠ (Value.number (.zero false)).toJson
      ∧ (∀ o s, (Value.objectId o).toJson ≠ (Value.string s).toJson)
      ∧ ∀ bytes s t, s ≠ t →
        (Value.binary ⟨bytes, s⟩).toJson ≠ (Value.binary ⟨bytes, t⟩).toJson := by
  have hiff : d.toJson = e.toJson ↔ d.canonical = e.canonical := by
    have hvalues := Value.toJson_eq_toJson_iff hd he
    rw [Value.canonical_document, Value.canonical_document, Value.document.injEq] at hvalues
    exact hvalues
  refine ⟨hiff, fun h => ?_, fun hnan hnan' h => ?_, ?_, ?_, ?_, ?_⟩
  · have h := hiff.1 h
    have horder : d.canonical.order = e.canonical.order := by rw [h]
    refine ⟨horder, ?_⟩
    have hitems := congrArg OrderedMap.items h
    rw [Value.items_canonical, Value.items_canonical, map_eq_map_iff_forall₂] at hitems
    unfold OrderedMap.values
    rw [List.forall₂_map_left_iff, List.forall₂_map_right_iff]
    exact hitems.imp fun p q hpq => (Prod.mk.inj hpq).2
  · have hself : ∀ c : Document, (Value.document c).Unreserved →
        (∀ x, (Value.document c).Inner (.number x) → x.isNaN = false) → c.canonical = c := by
      intro c hc hnan
      have hcanonical := Value.canonical_eq_self (fun b hb => (hc _ hb).1) hnan
      rw [Value.canonical_document, Value.document.injEq] at hcanonical
      exact hcanonical
    rw [← hself d hd hnan, ← hself e he hnan', hiff.1 h]
  · intro n x h
    have hkind := Value.kind_eq_of_toJson_eq (v := .integer n) (w := .number x) trivial trivial h
    cases hkind
  · intro h
    exact absurd (congrArg Json.number? h) (by decide)
  · intro o s h
    have hkind := Value.kind_eq_of_toJson_eq (v := .objectId o) (w := .string s) trivial trivial h
    cases hkind
  · intro bytes s t hst h
    exact hst (Binary.mk.inj (Binary.toJson_injective h)).2

/-- The bits of a NaN are not written, beside a reference to a document with a pattern. -/
theorem Document.toJson_eq_iff_nan :
    Document.toJson (.ofPairs [("a", .number (.nan true)),
        ("b", .reference "c" (.document (.ofPairs [("k", .regex ⟨"x", ⟨2⟩⟩)])))]) =
      Document.toJson (.ofPairs [("a", .number (.nan false)),
        ("b", .reference "c" (.document (.ofPairs [("k", .regex ⟨"x", ⟨2⟩⟩)])))]) := by
  have hkeys : "a".toList.head? ≠ some '$' ∧ "b".toList.head? ≠ some '$'
      ∧ "k".toList.head? ≠ some '$' := by decide
  have hid : (Value.document (.ofPairs [("k", .regex ⟨"x", ⟨2⟩⟩)])).Unreserved := by
    refine Value.unreserved_ofPairs fun p hp => ?_
    rw [List.mem_singleton.1 hp]
    exact ⟨hkeys.2.2, Value.unreserved_iff.2 ⟨rfl, by rintro w ⟨⟩⟩⟩
  have hunreserved : ∀ x, (Value.document (.ofPairs [("a", .number x),
      ("b", .reference "c" (.document (.ofPairs [("k", .regex ⟨"x", ⟨2⟩⟩)])))])).Unreserved := by
    intro x
    refine Value.unreserved_ofPairs fun p hp => ?_
    rcases List.mem_pair.1 hp with rfl | rfl
    · exact ⟨hkeys.1, Value.unreserved_iff.2 ⟨trivial, by rintro w ⟨⟩⟩⟩
    · refine ⟨hkeys.2.1, Value.unreserved_iff.2 ⟨trivial, fun w hw => ?_⟩⟩
      rw [List.mem_singleton.1 hw]
      exact hid
  exact (Document.toJson_eq_iff (hunreserved _) (hunreserved _)).1.2 rfl

end TypedDoc

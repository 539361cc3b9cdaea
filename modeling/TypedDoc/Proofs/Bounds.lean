import TypedDoc.Proofs.Decoding
import TypedDoc.Proofs.Items

/-!
# Bounds on what decoding gives

The limits bound the result of decoding, whatever the elements are: what an element at some depth
becomes fits into the levels that are left below that depth (`fits_value`), since a document or an
array has parts only if there was a level to go down to, and its parts fit into one level less. So
do the results of all three ways to decode (`decoded_fits`).
-/

namespace TypedDoc

namespace RegexOptions

theorem and_or_right (a b c : UInt32) : (a ||| b) &&& c = a &&& c ||| b &&& c :=
  UInt32.toBitVec_inj.1 BitVec.and_or_distrib_right

theorem unknown_or (a b : UInt32) : unknown ⟨a ||| b⟩ = unknown ⟨a⟩ ||| unknown ⟨b⟩ := by
  rw [unknown_eq, unknown_eq, unknown_eq, and_or_right]

theorem unknown_bit (o : RegexOption) : unknown ⟨o.bit⟩ = 0 := by
  cases o <;> rfl

theorem unknown_foldl (p : RegexOption → Bool) (os : List RegexOption) (bits : UInt32) :
    unknown ⟨os.foldl (fun bits o => if p o then bits ||| o.bit else bits) bits⟩ =
      unknown ⟨bits⟩ := by
  induction os generalizing bits with
  | nil => rfl
  | cons o os ih =>
    rw [List.foldl_cons, ih]
    split_ifs
    · rw [unknown_or, unknown_bit, UInt32.or_zero]
    · rfl

theorem unknown_ofLetters (s : String) : (ofLetters s).unknown = 0 := unknown_foldl _ _ 0

end RegexOptions

theorem Binary.subtype_read {text : String} {b : Binary} (h : read text = .ok b) :
    b.subtype = 0 := by
  unfold read at h
  split at h
  · rw [← Except.ok.inj h]
  · cases h

namespace Decode

namespace Dense

theorem size_place (items : Array Value) (i : Nat) (v : Value) :
    (place items i v).size = max items.size (i + 1) := by
  unfold place
  split
  · rw [Array.size_set]
    omega
  · rw [Array.size_push, Array.size_append, Array.size_replicate]
    omega

theorem mem_place {items : Array Value} {i : Nat} {v w : Value} (h : w ∈ place items i v) :
    w = .null ∨ w = v ∨ w ∈ items := by
  unfold place at h
  split at h
  · rcases Array.mem_or_eq_of_mem_set h with h | rfl
    · exact .inr (.inr h)
    · exact .inr (.inl rfl)
  · rcases Array.mem_push.1 h with h | rfl
    · rcases Array.mem_append.1 h with h | h
      · exact .inr (.inr h)
      · exact .inl (Array.mem_replicate.1 h).2
    · exact .inr (.inl rfl)

/-- Nulls and the given values, and no more of them than the limit allows. -/
theorem ofPairs_bounded {limit : Nat} {ps : List (String × Value)} {vs : List Value}
    (h : ofPairs limit ps = .ok vs) :
    vs.length ≤ limit ∧ ∀ v ∈ vs, ps ≠ [] ∧ (v = .null ∨ ∃ p ∈ ps, p.2 = v) := by
  obtain ⟨items, hfold, rfl⟩ := map_eq_ok_iff.1 h
  have hbounded :
      items.size ≤ limit ∧ ∀ v ∈ items, ps ≠ [] ∧ (v = .null ∨ ∃ p ∈ ps, p.2 = v) := by
    refine foldlM_induct (P := fun items : Array Value => items.size ≤ limit
      ∧ ∀ v ∈ items, ps ≠ [] ∧ (v = .null ∨ ∃ p ∈ ps, p.2 = v)) ?_ ?_ hfold
    · rintro items p items' hp ⟨hsize, hmem⟩ hstep
      obtain ⟨i, -, hi, rfl⟩ := step_eq_ok_iff.1 hstep
      have hplaced : (place items i p.2).size ≤ limit := by
        rw [size_place]
        omega
      refine ⟨hplaced, fun w hw => ⟨List.ne_nil_of_mem hp, ?_⟩⟩
      rcases mem_place hw with rfl | rfl | hw
      · exact .inl rfl
      · exact .inr ⟨p, hp, rfl⟩
      · exact (hmem w hw).2
    · exact ⟨Nat.zero_le _, fun v hv => by simp at hv⟩
  exact ⟨hbounded.1, fun v hv => hbounded.2 v (Array.mem_toList_iff.1 hv)⟩

end Dense

variable {limits : Limits} {n : Nat}

theorem fits_scalar {tag : String} {text : Option String} {r : Rule} {v : Value}
    (h : scalar? tag text r = some (.ok v)) (k l : Nat) : v.Fits k l := by
  have hkind := kind_scalar h
  cases v with
  | array items => cases r <;> simp [Value.kind, Rule.kind, scalar?] at hkind h
  | document d => cases r <;> simp [Value.kind, Rule.kind, scalar?] at hkind h
  | regex x => cases r <;> simp [Value.kind, Rule.kind, scalar?] at hkind h
  | reference c id => cases r <;> simp [Value.kind, Rule.kind, scalar?] at hkind h
  | binary b =>
    have hread : binary text = .ok b := by
      cases r <;> simp only [Value.kind, Rule.kind, reduceCtorEq] at hkind
      simp only [scalar?, Option.some.injEq, map_eq_ok_iff, Value.binary.injEq,
        exists_eq_right] at h
      exact h
    have hsub : b.subtype = 0 := by
      rcases text with _ | s
      · rw [← Except.ok.inj hread]
        rfl
      · exact Binary.subtype_read hread
    exact Value.fits_of_parts_nil hsub rfl (by rintro ⟨⟩)
  | _ => exact Value.fits_of_parts_nil trivial rfl (by rintro ⟨⟩)

/-- The values of a document's children, one level further down, make a document that fits. -/
theorem fits_document {tag : String} {cs : List Field} {d : Document} {l : Nat}
    (h : document limits n tag cs = .ok d)
    (hcs : ∀ f ∈ cs, ∀ v, value limits (n + 1) f = .ok v →
      v.Fits (limits.maxDepth - (n + 1)) l) :
    (Value.document d).Fits (limits.maxDepth - n) l := by
  obtain ⟨hn, ps, hps, rfl⟩ := document_eq_ok_iff.1 h
  refine Value.fits_iff.2 ⟨OrderedMap.wellFormed_ofPairs ps, nofun, fun w hw => ?_⟩
  obtain ⟨p, hp, rfl⟩ := OrderedMap.mem_of_mem_values_ofPairs hw
  obtain ⟨f, hf, -, hv⟩ := exists_mem_of_forall₂ hps hp
  have := hn (List.ne_nil_of_mem hf)
  exact ⟨by omega, hcs f hf p.2 hv⟩

theorem fits_array {d : Document} {vs : List Value} {k l : Nat}
    (hd : (Value.document d).Fits k l) (h : Dense.ofPairs l d.items = .ok vs) :
    (Value.array vs).Fits k l := by
  obtain ⟨hlen, hmem⟩ := Dense.ofPairs_bounded h
  obtain ⟨-, -, hparts⟩ := Value.fits_iff.1 hd
  refine Value.fits_iff.2 ⟨hlen, nofun, fun w hw => ?_⟩
  obtain ⟨hne, hw⟩ := hmem w hw
  have hdepth : 1 ≤ k := by
    obtain ⟨⟨key, v⟩, hp⟩ := List.exists_mem_of_ne_nil _ hne
    exact (hparts v (OrderedMap.mem_values_of_mem hp)).1
  refine ⟨hdepth, ?_⟩
  rcases hw with rfl | ⟨⟨key, v⟩, hp, rfl⟩
  · exact Value.fits_of_parts_nil trivial rfl (by rintro ⟨⟩)
  · exact (hparts v (OrderedMap.mem_values_of_mem hp)).2

theorem fits_reference {collection : String} {id : Value} {k l : Nat} (hk : 1 ≤ k)
    (hid : id.Fits (k - 1) l) : (Value.reference collection id).Fits k l := by
  refine Value.fits_iff.2 ⟨trivial, nofun, fun w hw => ?_⟩
  obtain rfl := List.mem_singleton.1 hw
  exact ⟨hk, hid⟩

theorem fits_regex {r : Regex} {k l : Nat} (hk : 1 ≤ k) (hr : r.options.unknown = 0) :
    (Value.regex r).Fits k l :=
  Value.fits_iff.2 ⟨hr, fun _ => hk, nofun⟩

/-- Induction on the element. -/
theorem fits_value (limits : Limits) : ∀ f n v, value limits n f = .ok v →
    v.Fits (limits.maxDepth - n) limits.maxArrayLength := by
  intro f
  induction f using Field.induction with
  | h f ih =>
    intro n v h
    cases shape f with
    | unknown hr =>
      rw [value_unknown hr] at h
      cases h
    | scalar r x hr hx =>
      rw [value_scalar hr hx] at h
      subst h
      exact fits_scalar hx _ _
    | document _ hr =>
      rw [value_document hr, map_eq_ok_iff] at h
      obtain ⟨d, hd, rfl⟩ := h
      exact fits_document hd fun g hg => ih g hg (n + 1)
    | array _ hr =>
      simp only [value_array hr, bind_eq_ok_iff] at h
      obtain ⟨d, hd, vs, hvs, hv⟩ := h
      cases hv
      exact fits_array (fits_document hd fun g hg => ih g hg (n + 1)) hvs
    | reference a b _ hr hc =>
      simp only [value_reference hr hc, bind_eq_ok_iff, descend_eq_ok_iff] at h
      obtain ⟨_, ⟨hn, rfl⟩, _, -, s, -, id, hid, hv⟩ := h
      cases hv
      exact fits_reference (by omega) (ih b (by simp [hc]) (n + 1) id hid)
    | regex a b _ hr hc =>
      simp only [value_regex hr hc, bind_eq_ok_iff, descend_eq_ok_iff, options_eq_ok_iff] at h
      obtain ⟨_, ⟨hn, rfl⟩, _, -, s, -, o, ⟨-, rfl⟩, hv⟩ := h
      cases hv
      exact fits_regex (by omega) (RegexOptions.unknown_ofLetters _)
    | miscounted _ hr hc =>
      rw [value_not_two hr hc] at h
      cases h

theorem fits_children {f : Field} {d : Document} (h : children limits f = .ok d) :
    (Value.document d).Fits limits.maxDepth limits.maxArrayLength :=
  fits_document h fun g _ => fits_value limits g (0 + 1)

theorem children_of_tree {root : Field} {d : Document} (h : tree limits root = .ok d) :
    ∃ f ∈ root.children, children limits f = .ok d := by
  unfold tree at h
  split at h
  · rename_i f _ hc
    exact ⟨f, by simp [hc], h⟩
  · cases h

/-- Without levels to go down to, an element must not have children. -/
theorem children_eq_ok_iff_of_maxDepth_eq_zero (h : limits.maxDepth = 0) {f : Field}
    {d : Document} : children limits f = .ok d ↔ f.children = [] ∧ d = .empty := by
  rw [children, document_eq_ok_iff, h]
  refine ⟨fun ⟨hn, ps, hps, hd⟩ => ?_, ?_⟩
  · have hc : f.children = [] := by
      by_contra hne
      exact absurd (hn hne) (by omega)
    rw [hc, List.forall₂_nil_left_iff] at hps
    subst hps
    exact ⟨hc, hd⟩
  · rintro ⟨hc, rfl⟩
    rw [hc]
    exact ⟨fun hne => absurd rfl hne, [], .nil, rfl⟩

/-- Whatever decoding gives fits its limits; with no depth at all it is the empty document. -/
theorem decoded_fits (limits : Limits) (f : Field) :
    (∀ d, children limits f = .ok d →
        (Value.document d).Fits limits.maxDepth limits.maxArrayLength)
      ∧ (∀ d, tree limits f = .ok d →
        (Value.document d).Fits limits.maxDepth limits.maxArrayLength)
      ∧ (∀ v, element limits f = .ok v → v.Fits limits.maxDepth limits.maxArrayLength)
      ∧ (limits.maxDepth = 0 → ∀ d, children limits f = .ok d ↔ f.children = [] ∧ d = .empty) := by
  refine ⟨fun d => fits_children, fun d h => ?_, fun v => fits_value limits f 0 v,
    fun h d => children_eq_ok_iff_of_maxDepth_eq_zero h⟩
  obtain ⟨g, -, hd⟩ := children_of_tree h
  exact fits_children hd

/-- The array is as long as it may become, with a null before its last item, and as deep as it may
lie. -/
theorem decoded_fits_padded :
    children ⟨2, 2⟩ (.mk "doc" none none
        [.mk "array" (some "a") none [.mk "boolean" (some "1") (some "true") []]]) =
      .ok (.ofPairs [("a", .array [.null, .boolean true])])
      ∧ (Value.document (.ofPairs [("a", .array [.null, .boolean true])])).Fits 2 2 := by
  have h : children ⟨2, 2⟩ (.mk "doc" none none
      [.mk "array" (some "a") none [.mk "boolean" (some "1") (some "true") []]]) =
      .ok (.ofPairs [("a", .array [.null, .boolean true])]) := rfl
  exact ⟨h, (decoded_fits ⟨2, 2⟩ _).1 _ h⟩

end Decode

end TypedDoc

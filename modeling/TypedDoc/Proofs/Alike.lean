import TypedDoc.Proofs.Decoding
import TypedDoc.Proofs.Views

/-!
# What decoding does not read

Much of what a tree shows is not read: the text of containers, the children of elements that have a
text, the names of the children of references and regular expressions, and everything in an element
whose tag is unknown or null but the tag. Two elements are alike if they differ in nothing else
(`View.Alike`), and then they have the same value or the same error (`value_eq_of_alike`). Of the
root only the second child is read, so trees whose second children are alike are decoded alike
(`decodes_alike`).
-/

namespace TypedDoc

variable {α : Type}

namespace View

mutual

/-- Two elements, their names aside, do not differ in what decoding reads of them. It reads only
the tag if it does not know it or knows it to be null, and otherwise the text or the children; of
the second child of a regular expression it reads the tag and the text, and of a reference or a
regular expression without two children it reads how many there are. -/
inductive Alike (v : View α) : α → α → Prop
  | tag {a b : α} : v.tag a = v.tag b → v.tag a ∉ Rule.table.map (·.1) ∨ v.tag a = "null" →
    Alike v a b
  | text {a b : α} : v.tag a = v.tag b → v.tag a ∉ ["doc", "array", "ref", "regex"] →
    v.text? a = v.text? b → Alike v a b
  | members {a b : α} : v.tag a = v.tag b → v.tag a = "doc" ∨ v.tag a = "array" →
    AlikeMembers v (v.children a) (v.children b) → Alike v a b
  | reference {a b c d c' d' : α} : v.tag a = v.tag b → v.tag a = "ref" →
    v.children a = [c, d] → v.children b = [c', d'] → Alike v c c' → Alike v d d' → Alike v a b
  | regex {a b c d c' d' : α} : v.tag a = v.tag b → v.tag a = "regex" →
    v.children a = [c, d] → v.children b = [c', d'] → Alike v c c' →
    v.tag d = v.tag d' → v.text? d = v.text? d' → Alike v a b
  | count {a b : α} : v.tag a = v.tag b → v.tag a = "ref" ∨ v.tag a = "regex" →
    (v.children a).length ≠ 2 → (v.children a).length = (v.children b).length → Alike v a b

/-- Children that are kept by their names have the same ones, each in its turn, and are alike. -/
inductive AlikeMembers (v : View α) : List α → List α → Prop
  | nil : AlikeMembers v [] []
  | cons {a b : α} {as bs : List α} : v.attribute? a "name" = v.attribute? b "name" →
    Alike v a b → AlikeMembers v as bs → AlikeMembers v (a :: as) (b :: bs)

end

/-- Roots have second children with the same tag and the same members. The children beside them and
whatever else the roots show may differ. -/
inductive AlikeTrees (v : View α) : α → α → Prop
  | second {r s a b x y : α} {as bs : List α} : v.children r = x :: a :: as →
    v.children s = y :: b :: bs → v.tag a = v.tag b →
    AlikeMembers v (v.children a) (v.children b) → AlikeTrees v r s

theorem Alike.tag_eq {v : View α} {a b : α} (h : v.Alike a b) : v.tag a = v.tag b := by
  cases h <;> assumption

end View

namespace Decode

variable {limits : Limits} {v : View α} {toField : α → Field}

theorem value_eq_of_tag {f g : Field} (ht : f.tag = g.tag)
    (h : f.tag ∉ Rule.table.map (·.1) ∨ f.tag = "null") (n : Nat) :
    value limits n f = value limits n g := by
  rcases h with h | h
  · have hf := Rule.ofTag?_eq_none_iff.2 h
    rw [value_unknown hf, value_unknown (ht ▸ hf), ht]
  · have hf : Rule.ofTag? f.tag = some .null := by
      rw [h]
      rfl
    rw [value_scalar hf rfl, value_scalar (ht ▸ hf) rfl]

theorem value_eq_of_text {f g : Field} (ht : f.tag = g.tag)
    (h : f.tag ∉ ["doc", "array", "ref", "regex"]) (hx : f.text = g.text) (n : Nat) :
    value limits n f = value limits n g := by
  simp only [List.mem_cons, List.not_mem_nil, or_false, not_or] at h
  obtain ⟨hdoc, harray, href, hregex⟩ := h
  cases shape f with
  | unknown hr => rw [value_unknown hr, value_unknown (ht ▸ hr), ht]
  | scalar r x hr hs =>
    rw [value_scalar hr hs, value_scalar (ht ▸ hr)]
    rw [← ht, ← hx]
    exact hs
  | document h => exact absurd h hdoc
  | array h => exact absurd h harray
  | reference _ _ h => exact absurd h href
  | regex _ _ h => exact absurd h hregex
  | miscounted h => exact absurd h (not_or.2 ⟨href, hregex⟩)

theorem document_congr {cs ds : List Field} {tag : String} (he : cs.isEmpty = ds.isEmpty)
    (h : ∀ m d, members limits m tag d cs = members limits m tag d ds) (n : Nat) :
    document limits n tag cs = document limits n tag ds := by
  unfold document enter
  simp only [he, h]

/-- The rules that keep children by their names, for all that they do with the document. -/
theorem value_eq_of_document {f g : Field} (ht : f.tag = g.tag)
    (h : f.tag = "doc" ∨ f.tag = "array") {n : Nat}
    (hd : document limits n f.tag f.children = document limits n f.tag g.children) :
    value limits n f = value limits n g := by
  rcases h with h | h
  · have hr : Rule.ofTag? f.tag = some .document := by
      rw [h]
      rfl
    rw [value_document hr, value_document (ht ▸ hr), ← ht, hd]
  · have hr : Rule.ofTag? f.tag = some .array := by
      rw [h]
      rfl
    rw [value_array hr, value_array (ht ▸ hr), ← ht, hd]

theorem value_eq_of_reference {f g a b a' b' : Field} (ht : f.tag = g.tag) (h : f.tag = "ref")
    (hcf : f.children = [a, b]) (hcg : g.children = [a', b'])
    (ha : ∀ m, value limits m a = value limits m a')
    (hb : ∀ m, value limits m b = value limits m b') (n : Nat) :
    value limits n f = value limits n g := by
  have hr : Rule.ofTag? f.tag = some .reference := by
    rw [h]
    rfl
  rw [value_reference hr hcf, value_reference (ht ▸ hr) hcg]
  simp only [ha, hb]

theorem value_eq_of_regex {f g a b a' b' : Field} (ht : f.tag = g.tag) (h : f.tag = "regex")
    (hcf : f.children = [a, b]) (hcg : g.children = [a', b'])
    (ha : ∀ m, value limits m a = value limits m a') (hb : b.tag = b'.tag)
    (hx : b.text = b'.text) (n : Nat) : value limits n f = value limits n g := by
  have hr : Rule.ofTag? f.tag = some .regex := by
    rw [h]
    rfl
  have ho : options b = options b' := by
    unfold options
    rw [hb, hx]
  rw [value_regex hr hcf, value_regex (ht ▸ hr) hcg]
  simp only [ha, ho]

theorem value_eq_of_count {f g : Field} (ht : f.tag = g.tag)
    (h : f.tag = "ref" ∨ f.tag = "regex") (hc : f.children.length ≠ 2)
    (hl : f.children.length = g.children.length) (n : Nat) :
    value limits n f = value limits n g := by
  have hr : Rule.ofTag? f.tag = some .reference ∨ Rule.ofTag? f.tag = some .regex := by
    rcases h with h | h <;> rw [h]
    · exact .inl rfl
    · exact .inr rfl
  rw [value_not_two hr hc, value_not_two (ht ▸ hr) (hl ▸ hc), ht, hl]

theorem isEmpty_map_of_alike {as bs : List α} (h : v.AlikeMembers as bs) :
    (as.map toField).isEmpty = (bs.map toField).isEmpty := by
  cases h <;> rfl

mutual

/-- Elements that are alike have the same value, or the same error. -/
theorem value_eq_of_alike (hv : v.Shows toField) : ∀ {a b : α}, v.Alike a b → ∀ n,
    value limits n (toField a) = value limits n (toField b)
  | a, b, .tag ht h, n => by
    rw [← hv.tag_eq, ← hv.tag_eq] at ht
    rw [← hv.tag_eq] at h
    exact value_eq_of_tag ht h n
  | a, b, .text ht h hx, n => by
    rw [← hv.tag_eq, ← hv.tag_eq] at ht
    rw [← hv.text_eq, ← hv.text_eq] at hx
    rw [← hv.tag_eq] at h
    exact value_eq_of_text ht h hx n
  | a, b, .members ht h hm, n => by
    rw [← hv.tag_eq, ← hv.tag_eq] at ht
    rw [← hv.tag_eq] at h
    refine value_eq_of_document ht h ?_
    rw [hv.children_eq, hv.children_eq]
    exact document_congr (isEmpty_map_of_alike hm) (fun m d => members_eq_of_alike hv hm m _ d) n
  | a, b, .reference ht h hc hd h₁ h₂, n => by
    have hfirst := value_eq_of_alike hv h₁
    have hsecond := value_eq_of_alike hv h₂
    rw [← hv.tag_eq, ← hv.tag_eq] at ht
    rw [← hv.tag_eq] at h
    exact value_eq_of_reference ht h (by rw [hv.children_eq, hc]; rfl)
      (by rw [hv.children_eq, hd]; rfl) hfirst hsecond n
  | a, b, .regex ht h hc hd h₁ ho hx, n => by
    have hfirst := value_eq_of_alike hv h₁
    rw [← hv.tag_eq, ← hv.tag_eq] at ht ho
    rw [← hv.text_eq, ← hv.text_eq] at hx
    rw [← hv.tag_eq] at h
    exact value_eq_of_regex ht h (by rw [hv.children_eq, hc]; rfl)
      (by rw [hv.children_eq, hd]; rfl) hfirst ho hx n
  | a, b, .count ht h hc hl, n => by
    have hlen : ∀ c, (toField c).children.length = (v.children c).length := by
      intro c
      rw [hv.children_eq, List.length_map]
    rw [← hv.tag_eq, ← hv.tag_eq] at ht
    rw [← hv.tag_eq] at h
    rw [← hlen] at hc
    rw [← hlen, ← hlen] at hl
    exact value_eq_of_count ht h hc hl n

theorem members_eq_of_alike (hv : v.Shows toField) : ∀ {as bs : List α}, v.AlikeMembers as bs →
    ∀ n parent d, members limits n parent d (as.map toField) =
      members limits n parent d (bs.map toField)
  | _, _, .nil, _, _, _ => rfl
  | _, _, .cons (a := a) (b := b) hn h hs, n, parent, d => by
    have hvalue := value_eq_of_alike hv h n
    have hrest := members_eq_of_alike hv hs n parent
    have htag := h.tag_eq
    rw [← hv.name_eq, ← hv.name_eq] at hn
    rw [← hv.tag_eq, ← hv.tag_eq] at htag
    rw [List.map_cons, List.map_cons, members, members]
    simp only [hn, htag, hvalue, hrest]

end

theorem children_eq_of_alike (hv : v.Shows toField) {a b : α} (ht : v.tag a = v.tag b)
    (h : v.AlikeMembers (v.children a) (v.children b)) :
    children limits (toField a) = children limits (toField b) := by
  unfold children
  rw [hv.tag_eq, hv.tag_eq, hv.children_eq, hv.children_eq, ht]
  exact document_congr (isEmpty_map_of_alike h) (fun m d => members_eq_of_alike hv h m _ d) 0

theorem tree_eq_of_alike (hv : v.Shows toField) {r s : α} (h : v.AlikeTrees r s) :
    tree limits (toField r) = tree limits (toField s) := by
  obtain ⟨hr, hs, ht, hm⟩ := h
  unfold tree
  rw [hv.children_eq, hv.children_eq, hr, hs]
  exact children_eq_of_alike hv ht hm

/-- Trees that differ only in what decoding does not read are decoded to the same document or to the
same error, be they built by hand or read from markup. -/
theorem decodes_alike (limits : Limits) :
    (∀ r s : Element, Element.view.AlikeTrees r s →
        tree limits r.toField = tree limits s.toField)
      ∧ ∀ r s : Markup.Branch, Markup.Branch.view.AlikeTrees r s →
        tree limits r.toField = tree limits s.toField :=
  ⟨fun _ _ => tree_eq_of_alike Element.view_shows,
    fun _ _ => tree_eq_of_alike Markup.Branch.view_shows⟩

/-- Another root with more in it, a language for the document, text and an element in a null, and
names for the children of a reference. -/
theorem decodes_alike_elements :
    Element.view.AlikeTrees
        (.mk "a" [] none [.bare "m", .mk "doc" [] none
          [.mk "null" [("name", "x")] none [],
            .mk "ref" [("name", "y")] none [.bare "ns", .bare "foo"]]])
        (.mk "b" [] (some "t") [.bare "foo", .mk "doc" [("lang", "en")] none
          [.mk "null" [("lang", "en"), ("name", "x")] (some "t") [.bare "foo"],
            .mk "ref" [("name", "y")] (some "t") [.named "ns" "z", .named "foo" "z"]],
          .bare "foo"])
      ∧ tree ⟨2, 0⟩ (Element.mk "a" [] none [.bare "m", .mk "doc" [] none
          [.mk "null" [("name", "x")] none [],
            .mk "ref" [("name", "y")] none [.bare "ns", .bare "foo"]]]).toField =
        tree ⟨2, 0⟩ (Element.mk "b" [] (some "t") [.bare "foo", .mk "doc" [("lang", "en")] none
          [.mk "null" [("lang", "en"), ("name", "x")] (some "t") [.bare "foo"],
            .mk "ref" [("name", "y")] (some "t") [.named "ns" "z", .named "foo" "z"]],
          .bare "foo"]).toField := by
  have h : Element.view.AlikeTrees
      (.mk "a" [] none [.bare "m", .mk "doc" [] none
        [.mk "null" [("name", "x")] none [],
          .mk "ref" [("name", "y")] none [.bare "ns", .bare "foo"]]])
      (.mk "b" [] (some "t") [.bare "foo", .mk "doc" [("lang", "en")] none
        [.mk "null" [("lang", "en"), ("name", "x")] (some "t") [.bare "foo"],
          .mk "ref" [("name", "y")] (some "t") [.named "ns" "z", .named "foo" "z"]],
        .bare "foo"]) := by
    refine .second rfl rfl rfl (.cons rfl (.tag rfl (.inr rfl)) (.cons rfl ?_ .nil))
    exact .reference rfl rfl rfl rfl (.text rfl (by decide) rfl) (.tag rfl (.inl (by decide)))
  exact ⟨h, (decodes_alike ⟨2, 0⟩).1 _ _ h⟩

end Decode

end TypedDoc

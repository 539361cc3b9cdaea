import TypedDoc.Proofs.DepthLimit
import TypedDoc.Proofs.Views

/-!
# Copies of what was read

An element that was read from markup can be decoded as it is, or be copied first. The copy shows
the same tag, the same text and the copies of the same children, but of attributes it keeps the
local names only. Asked for a name, it answers with the first attribute that has this local name,
in whatever namespace, where the original answers with the one that has no namespace
(`Markup.Branch.shown_attribute_toElement`). So decoding the copy has the same outcome where no
attribute called `name` in a namespace comes first (`Document.ofElement_read`), and may have
another one elsewhere (`Document.ofElement_read_qualified`).
-/

namespace TypedDoc

/-- An element is another one or lies below it. -/
inductive View.Contains {α : Type} (v : View α) : α → α → Prop
  | self (a : α) : Contains v a a
  | child {a b c : α} : b ∈ v.children a → Contains v b c → Contains v a c

namespace Markup

/-- If an element has attributes with the local name `name`, the first of them has no namespace. -/
def Branch.HasPlainName (b : Branch) : Prop :=
  ∀ a, b.attributes.find? (·.localName == "name") = some a → a.namespaceName = none

theorem lookup_localNames (attributes : List Attribute) (name : String) :
    (attributes.map fun a => (a.localName, a.value)).lookup name =
      (attributes.find? (·.localName == name)).map (·.value) := by
  induction attributes with
  | nil => rfl
  | cons a attributes ih =>
    rw [List.map_cons, List.lookup_cons, List.find?_cons]
    by_cases h : a.localName = name
    · simp [h]
    · rw [beq_false_of_ne h, beq_false_of_ne (Ne.symm h)]
      exact ih

theorem plainAttribute?_eq {attributes : List Attribute} {name : String}
    (h : ∀ a, attributes.find? (·.localName == name) = some a → a.namespaceName = none) :
    plainAttribute? attributes name =
      (attributes.find? (·.localName == name)).map (·.value) := by
  unfold plainAttribute?
  induction attributes with
  | nil => rfl
  | cons a attributes ih =>
    rw [List.find?_cons] at h ⊢
    rw [List.find?_cons]
    by_cases hn : a.localName = name
    · have hnone : a.namespaceName = none := h a (by simp [hn])
      simp [hn, hnone]
    · rw [beq_false_of_ne hn, Bool.and_false]
      rw [beq_false_of_ne hn] at h
      exact ih h

theorem Node.toElements_eq (ns : List Node) :
    Node.toElements ns = (ns.filterMap Node.branch?).map Branch.toElement :=
  Node.eq_map_branches rfl (fun n _ => by cases n <;> rfl) ns

namespace Branch

theorem shown_attribute_toElement (b : Branch) (name : String) :
    Element.view.attribute? b.toElement name =
      (b.attributes.find? (·.localName == name)).map (·.value) := by
  obtain ⟨tag, attributes, content⟩ := b
  rw [toElement]
  exact lookup_localNames attributes name

theorem shown_tag_toElement (b : Branch) : Element.view.tag b.toElement = Branch.view.tag b := by
  obtain ⟨tag, attributes, content⟩ := b
  rw [toElement]
  rfl

theorem shown_text_toElement (b : Branch) :
    Element.view.text? b.toElement = Branch.view.text? b := by
  obtain ⟨tag, attributes, content⟩ := b
  rw [toElement]
  rfl

theorem shown_children_toElement (b : Branch) :
    Element.view.children b.toElement = (Branch.view.children b).map toElement := by
  obtain ⟨tag, attributes, content⟩ := b
  rw [toElement]
  exact Node.toElements_eq content

/-- What decoding asks of the copy of an element, answered as the element itself answers. -/
structure CopyShowsSame (b : Branch) : Prop where
  tag : Element.view.tag b.toElement = Branch.view.tag b
  name : Element.view.attribute? b.toElement "name" = Branch.view.attribute? b "name"
  text : Element.view.text? b.toElement = Branch.view.text? b
  children : Element.view.children b.toElement = (Branch.view.children b).map toElement

theorem HasPlainName.copyShowsSame {b : Branch} (h : b.HasPlainName) : b.CopyShowsSame where
  tag := b.shown_tag_toElement
  name := (b.shown_attribute_toElement "name").trans (plainAttribute?_eq h).symm
  text := b.shown_text_toElement
  children := b.shown_children_toElement

/-- Induction on what decoding sees of the element. -/
theorem toField_toElement : ∀ f (b : Branch), b.toField = f →
    (∀ c, Branch.view.Contains b c → c.CopyShowsSame) → b.toElement.toField = b.toField := by
  intro f
  induction f using Field.induction with
  | h f ih =>
    rintro b rfl h
    have hb := h b (.self b)
    have hchildren : ∀ c ∈ Branch.view.children b, c.toElement.toField = c.toField := by
      intro c hc
      have hmem : c.toField ∈ b.toField.children := by
        rw [Branch.view_shows.children_eq]
        exact List.mem_map_of_mem hc
      exact ih _ hmem c rfl fun d hd => h d (.child hc hd)
    rw [Element.view_shows b.toElement, Branch.view_shows b, hb.tag, hb.name, hb.text,
      hb.children, List.map_map, List.map_congr_left (f := Element.toField ∘ toElement) hchildren]

end Branch

end Markup

open Markup in
/-- If no element of a text has an attribute called `name` in a namespace before any other attribute
that is called so, then the copy shows the same as the tree at every element of it, and decoding
the copy gives the same document or the same error as decoding the text. -/
theorem Document.ofElement_read {text : String}
    (h : ∀ root, Markup.root text = .ok root →
      ∀ b, Branch.view.Contains root b → b.HasPlainName) :
    (∀ root, Markup.root text = .ok root →
        ∀ b, Branch.view.Contains root b → b.CopyShowsSame)
      ∧ (Element.read text >>= Document.ofElement) = Document.read {} text := by
  have hsame : ∀ root, Markup.root text = .ok root →
      ∀ b, Branch.view.Contains root b → b.CopyShowsSame := fun root hroot b hb =>
    (h root hroot b hb).copyShowsSame
  refine ⟨hsame, ?_⟩
  unfold Element.read Document.read
  rcases Depth.check ({} : Limits).maxDepth text with e | _
  · rfl
  · rcases hroot : Markup.root text with e | root
    · rfl
    · have hfield := Branch.toField_toElement _ root rfl (hsame root hroot)
      exact congrArg (Decode.tree {}) hfield

open Markup in
/-- The attribute in a namespace comes second here. -/
theorem Document.ofElement_read_plain :
    (∀ root, Markup.root "<r><m/><doc><int name='m' xml:name='n'>5</int></doc></r>" = .ok root →
        ∀ b, Branch.view.Contains root b → b.HasPlainName)
      ∧ (Element.read "<r><m/><doc><int name='m' xml:name='n'>5</int></doc></r>"
        >>= Document.ofElement) =
        Document.read {} "<r><m/><doc><int name='m' xml:name='n'>5</int></doc></r>" := by
  have hread : Markup.root "<r><m/><doc><int name='m' xml:name='n'>5</int></doc></r>" =
      .ok (.mk "r" [] [.element (.mk "m" [] []), .element (.mk "doc" [] [.element (.mk "int"
        [⟨none, "name", "m"⟩, ⟨some Scope.xmlName, "name", "n"⟩] [.text "5"])])]) := by
    with_unfolding_all rfl
  have hplain : ∀ root,
      Markup.root "<r><m/><doc><int name='m' xml:name='n'>5</int></doc></r>" = .ok root →
        ∀ b, Branch.view.Contains root b → b.HasPlainName := by
    intro root hroot
    rw [hread] at hroot
    cases hroot
    -- the root, its first child, the document and the integer in it
    rintro _ (_ | ⟨hc, hb⟩)
    · rintro _ ⟨⟩
    rcases List.mem_cons.1 hc with rfl | hc
    · rcases hb with _ | ⟨⟨⟩, _⟩
      rintro _ ⟨⟩
    obtain rfl := List.mem_singleton.1 hc
    rcases hb with _ | ⟨hc, hb⟩
    · rintro _ ⟨⟩
    obtain rfl := List.mem_singleton.1 hc
    rcases hb with _ | ⟨⟨⟩, _⟩
    rintro _ ⟨⟩
    rfl
  exact ⟨hplain, (Document.ofElement_read hplain).2⟩

theorem Element.read_eq {text : String} {root : Markup.Branch} (h : Markup.root text = .ok root) :
    Element.read text =
      if Markup.Depth.levels 100 < root.depth then .error (.depthLimitExceeded 100)
      else .ok root.toElement := by
  unfold Element.read
  rw [Markup.Depth.check_eq h, h]
  split_ifs <;> rfl

open Markup in
/-- An attribute in a namespace that comes before the name of its element gives the copy another
name, and its document another key. -/
theorem Document.ofElement_read_qualified :
    (Element.read "<r><m/><doc><int xmlns:x='u' x:name='n' name='m'>5</int></doc></r>"
        >>= Document.ofElement) ≠
      Document.read {} "<r><m/><doc><int xmlns:x='u' x:name='n' name='m'>5</int></doc></r>" := by
  have hroot : Markup.root
      "<r><m/><doc><int xmlns:x='u' x:name='n' name='m'>5</int></doc></r>" =
      .ok (.mk "r" [] [.element (.mk "m" [] []), .element (.mk "doc" [] [.element (.mk "int"
        [⟨some "u", "name", "n"⟩, ⟨none, "name", "m"⟩] [.text "5"])])]) := by
    with_unfolding_all rfl
  rw [Document.read_eq hroot, Element.read_eq hroot, if_neg (by decide), if_neg (by decide)]
  -- one document has the key `n`, the other one the key `m`
  intro h
  have hkeys : some ["n"] = some ["m"] := congrArg (·.toOption.map OrderedMap.keys) h
  exact absurd hkeys (by decide)

end TypedDoc

import TypedDoc.Element
import TypedDoc.Markup.Node

/-!
# Views of trees

Decoding asks an element of a tree for its tag, its name, its text and its children. Trees that
were built by hand and trees that were read from markup answer each in their own way, and in both
there is more than these answers show: other attributes, comments, text after the first child. A
view is the way in which one kind of tree answers, and decoding goes by the answers alone
(`View.Shows`).
-/

namespace TypedDoc

variable {α : Type}

/-- What an element of a tree can be asked for. -/
structure View (α : Type) where
  tag : α → String
  attribute? : α → String → Option String
  text? : α → Option String
  children : α → List α

namespace View

/-- A function puts together what a view shows of an element and of all elements below it. -/
def Shows (v : View α) (toField : α → Field) : Prop :=
  ∀ a, toField a =
    .mk (v.tag a) (v.attribute? a "name") (v.text? a) ((v.children a).map toField)

section Shows

variable {v : View α} {toField : α → Field} (hv : v.Shows toField) (a : α)

include hv

theorem Shows.tag_eq : (toField a).tag = v.tag a := by
  rw [hv a]
  rfl

theorem Shows.name_eq : (toField a).name = v.attribute? a "name" := by
  rw [hv a]
  rfl

theorem Shows.text_eq : (toField a).text = v.text? a := by
  rw [hv a]
  rfl

theorem Shows.children_eq : (toField a).children = (v.children a).map toField := by
  rw [hv a]
  rfl

end Shows

end View

namespace Element

/-- A tree of elements answers with what it is made of. -/
def view : View Element := ⟨Element.tag, Element.attribute?, Element.text, Element.children⟩

theorem toFields_eq (es : List Element) : toFields es = es.map toField := by
  induction es with
  | nil => rfl
  | cons e es ih => rw [toFields, ih, List.map_cons]

theorem view_shows : view.Shows toField
  | .mk tag attributes text children => by
    rw [toField, toFields_eq]
    rfl

end Element

namespace Markup

def Node.branch? : Node → Option Branch
  | .element b => some b
  | .text _ | .comment | .instruction => none

/-- An element that was read answers with the attributes that have no namespace, with the text that
its content begins with, and with the elements among its content. -/
def Branch.view : View Branch where
  tag := Branch.tag
  attribute? b name := plainAttribute? b.attributes name
  text? b := leadingText? b.content
  children b := b.content.filterMap Node.branch?

/-- A recursion over content that leaves all but the elements out. -/
theorem Node.eq_map_branches {β : Type} {f : Branch → β} {g : List Node → List β}
    (hnil : g [] = []) (hcons : ∀ n ns, g (n :: ns) = (n.branch?.map f).toList ++ g ns)
    (ns : List Node) : g ns = (ns.filterMap Node.branch?).map f := by
  induction ns with
  | nil => exact hnil
  | cons n ns ih =>
    rw [hcons, ih]
    cases n <;> rfl

theorem Node.toFields_eq (ns : List Node) :
    Node.toFields ns = (ns.filterMap Node.branch?).map Branch.toField :=
  Node.eq_map_branches rfl (fun n _ => by cases n <;> rfl) ns

theorem Branch.view_shows : Branch.view.Shows Branch.toField
  | .mk tag attributes content => by
    rw [Branch.toField, Node.toFields_eq]
    rfl

end Markup

end TypedDoc

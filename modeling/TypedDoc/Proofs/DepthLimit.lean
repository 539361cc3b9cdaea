import TypedDoc.Proofs.Faults
import TypedDoc.Proofs.Levels
import TypedDoc.Reading

/-!
# The limit on depth

Decoding runs into its limit on depth only because some element lies past it, and an element lies
no deeper than the tree is (`Live.level_add_depth_le`), so only a tree that is deeper than the limit
can do that. The root and the element of the document come on top of the levels that decoding
counts. So a text whose elements lie no deeper than the limit and these two is decoded as its tree
is, without a word about depth, and any other text is refused before that (`read_depthLimit`).
-/

namespace TypedDoc

mutual

/-- The number of elements on the longest way down, the outermost one counted. -/
def Field.depth (f : Field) : Nat :=
  match f with
  | .mk _ _ _ children => Field.depthAll children + 1
termination_by structural f

def Field.depthAll (fs : List Field) : Nat :=
  match fs with
  | [] => 0
  | f :: fs => max f.depth (Field.depthAll fs)
termination_by structural fs

end

theorem Field.depth_eq (f : Field) : f.depth = Field.depthAll f.children + 1 := by
  obtain ⟨tag, name, text, cs⟩ := f
  rw [Field.depth, Field.children]

theorem Field.depth_le_depthAll {f : Field} {fs : List Field} (h : f ∈ fs) :
    f.depth ≤ Field.depthAll fs := by
  induction fs with
  | nil => cases h
  | cons g fs ih =>
    rw [Field.depthAll]
    rcases List.mem_cons.1 h with rfl | h
    · exact Nat.le_max_left _ _
    · exact (ih h).trans (Nat.le_max_right _ _)

theorem Field.depth_lt_of_mem {f g : Field} (h : g ∈ f.children) : g.depth < f.depth := by
  rw [f.depth_eq]
  exact Nat.lt_succ_of_le (depth_le_depthAll h)

namespace Markup

mutual

/-- Decoding sees an element as deep as it is. -/
theorem Branch.depth_toField : ∀ b : Branch, b.toField.depth = b.depth
  | .mk tag attributes content => by
    rw [Branch.toField, Field.depth, Branch.depth, Node.depthAll_toFields content]

theorem Node.depthAll_toFields : ∀ ns : List Node,
    Field.depthAll (Node.toFields ns) = Node.depthAll ns
  | [] => rfl
  | .element b :: ns => by
    rw [Node.toFields, Node.depthAll, Node.depth, ← Branch.depth_toField b,
      ← Node.depthAll_toFields ns]
    rfl
  | .text _ :: ns | .comment :: ns | .instruction :: ns => by
    rw [Node.toFields, Node.depthAll, Node.depth, Nat.zero_max, ← Node.depthAll_toFields ns]
    rfl

end

end Markup

namespace Decode

variable {limits : Limits}

theorem Spot.Holds.level_eq {a b : Spot} (h : a.Holds b) : b.level = a.level + 1 := by
  cases h <;> rfl

/-- The levels above an element and those from it on fit into the whole. -/
theorem Live.level_add_depth_le {node : Field} {a : Spot} (h : Live node a) :
    a.level + a.element.depth ≤ node.depth := by
  induction h with
  | child hf =>
    have := Field.depth_lt_of_mem hf
    simp only []
    omega
  | held _ hb ih =>
    have := Field.depth_lt_of_mem hb.mem_children
    have := hb.level_eq
    omega

/-- Only an element that is deeper than the limit makes decoding run into it. -/
theorem depth_of_children_eq_error {node : Field} {k : Nat}
    (h : children limits node = .error (.depthLimitExceeded k)) :
    limits.maxDepth + 1 < node.depth := by
  obtain ⟨parent, a, ha, hfault⟩ := blames_children h
  cases hfault with
  | level hn =>
    have := ha.live.level_add_depth_le
    have := a.element.depth_eq
    omega

theorem depth_of_tree_eq_error {root : Field} {k : Nat}
    (h : tree limits root = .error (.depthLimitExceeded k)) :
    limits.maxDepth + 2 < root.depth := by
  unfold tree at h
  split at h
  · rename_i f _ hc
    have hroot : f.depth < root.depth := Field.depth_lt_of_mem (by simp [hc])
    have := depth_of_children_eq_error h
    omega
  · cases h

end Decode

namespace Markup.Depth

/-- What the walk over the bytes refuses is the depth of the tree. -/
theorem check_eq {text : String} {root : Branch} (h : Markup.root text = .ok root)
    (maxDepth : Nat) : check maxDepth text =
      if levels maxDepth < root.depth then .error (.depthLimitExceeded maxDepth) else .ok () := by
  have hread : Markup.read text = .ok root := mapError_eq_ok_iff.1 h
  unfold check
  simp only [exceeds_of_read hread (levels maxDepth)]

end Markup.Depth

open Markup.Depth in
theorem Document.read_eq {limits : Limits} {text : String} {root : Markup.Branch}
    (h : Markup.root text = .ok root) : Document.read limits text =
      if levels limits.maxDepth < root.depth then .error (.depthLimitExceeded limits.maxDepth)
      else Decode.tree limits root.toField := by
  unfold Document.read
  rw [check_eq h, h]
  split_ifs <;> rfl

/-- A text with a root element is refused for its depth exactly if some element in it lies more
than two levels deeper than decoding may go; numbers of levels have 64 bits. Any other text gives
what its tree gives, and that is no error about depth. -/
theorem Document.read_depthLimit (limits : Limits) {text : String} {root : Markup.Branch}
    (h : Markup.root text = .ok root) :
    (Document.read limits text = .error (.depthLimitExceeded limits.maxDepth) ↔
        min (limits.maxDepth + 2) ((1 <<< 64) - 1) < root.depth)
      ∧ (¬ min (limits.maxDepth + 2) ((1 <<< 64) - 1) < root.depth →
        Document.read limits text = Decode.tree limits root.toField
          ∧ ∀ k, Decode.tree limits root.toField ≠ .error (.depthLimitExceeded k)) := by
  have hlevels : Markup.Depth.levels limits.maxDepth =
      min (limits.maxDepth + 2) ((1 <<< 64) - 1) := rfl
  rw [← hlevels, Document.read_eq h]
  have htree : ¬ Markup.Depth.levels limits.maxDepth < root.depth →
      ∀ k, Decode.tree limits root.toField ≠ .error (.depthLimitExceeded k) := by
    intro hle k he
    have hdeep := Decode.depth_of_tree_eq_error he
    rw [root.depth_toField] at hdeep
    omega
  split_ifs with hdeep
  · exact ⟨iff_of_true rfl hdeep, fun hle => absurd hdeep hle⟩
  · exact ⟨iff_of_false (htree hdeep _) hdeep, fun hle => ⟨rfl, htree hle⟩⟩

open Markup in
/-- Three levels are too many for a decoder that may not go down at all, and not for one that may
go down once. -/
theorem Document.read_nested :
    Document.read ⟨0, 4⟩ "<r><m/><d><null name='k'/></d></r>" = .error (.depthLimitExceeded 0)
      ∧ Document.read ⟨1, 4⟩ "<r><m/><d><null name='k'/></d></r>" =
        .ok (.ofPairs [("k", .null)]) := by
  -- lexemes and attributes are read by well-founded recursion, which `rfl` alone does not unfold
  have hroot : Markup.root "<r><m/><d><null name='k'/></d></r>" =
      .ok (.mk "r" [] [.element (.mk "m" [] []),
        .element (.mk "d" [] [.element (.mk "null" [⟨none, "name", "k"⟩] [])])]) := by
    with_unfolding_all rfl
  refine ⟨(Document.read_depthLimit ⟨0, 4⟩ hroot).1.2 (by decide), ?_⟩
  rw [((Document.read_depthLimit ⟨1, 4⟩ hroot).2 (by decide)).1]
  rfl

end TypedDoc

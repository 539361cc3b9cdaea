import TypedDoc.Proofs.Levels

/-!
# The deepest level in raw bytes

The walk over bytes stops at the first start tag that lies past a limit. Going on to the end
instead, whatever the bytes are, leaves the deepest level that any start tag lies on (`extent`), and
the walk finds one too deep just if that level is past the limit (`exceeds_iff_lt_deepest`). So for
each sequence of bytes there is one number that decides for all limits, and a text that one depth
allows is allowed by every greater one (`deepest_decides`). Where the text has a root element, the
number is the depth of its tree (`deepest_of_read`).
-/

namespace TypedDoc.Markup.Depth

open Text (utf8)

/-! ## Going on to the end -/

/-- What each less-than sign begins, from the first of them to the end. -/
def marks (bs : List UInt8) : List Mark :=
  match _h : bs.dropWhile (· != 60) with
  | [] => []
  | _ :: rest => (mark rest).1 :: marks (mark rest).2
termination_by bs.length
decreasing_by
  have h1 := (List.dropWhile_sublist (fun b : UInt8 => b != 60) (l := bs)).length_le
  have h2 := length_mark_le rest
  rw [_h, List.length_cons] at h1
  omega

/-- The number of open elements and the deepest level so far. -/
structure Extent where
  opened : Nat
  deepest : Nat

def Extent.after (e : Extent) (m : Mark) : Extent :=
  ⟨m.opened e.opened, m.deepest e.opened e.deepest⟩

/-- What is left open at the end of some bytes, and the deepest level in them. -/
def extent (bs : List UInt8) : Extent := (marks bs).foldl Extent.after ⟨0, 0⟩

theorem marks_eq (bs : List UInt8) : marks bs =
    match bs.dropWhile (· != 60) with
    | [] => []
    | _ :: rest => (mark rest).1 :: marks (mark rest).2 := by
  rw [marks]
  split <;> simp_all only

/-! ## The walk that stops -/

theorem exceeds_dropWhile (limit n : Nat) (bs : List UInt8) :
    exceeds limit n (bs.dropWhile (· != 60)) = exceeds limit n bs := by
  have hno : 60 ∉ bs.takeWhile (· != 60) := fun hm => by simpa using List.mem_takeWhile_imp hm
  rw [← exceeds_text limit n hno, List.takeWhile_append_dropWhile]

/-- Induction on the bytes, from one less-than sign to the next: stopping at a level past the limit
and going on with it among those that count come to the same. -/
theorem exceeds_iff_lt_foldl (limit n deepest : Nat) (bs : List UInt8) :
    limit < deepest ∨ exceeds limit n bs = true ↔
      limit < ((marks bs).foldl Extent.after ⟨n, deepest⟩).deepest := by
  induction bs using marks.induct generalizing n deepest with
  | case1 bs hnil =>
    rw [← exceeds_dropWhile, marks_eq, hnil, exceeds_nil]
    simp
  | case2 bs b rest hcons ih =>
    obtain rfl : b = 60 := by
      have hhead := List.head?_dropWhile_not (· != 60) bs
      rw [hcons] at hhead
      simpa using hhead
    rw [← exceeds_dropWhile, marks_eq, hcons, exceeds_mark_iff rfl, List.foldl_cons]
    exact ih _ _

theorem exceeds_iff_lt_deepest (limit : Nat) (bs : List UInt8) :
    exceeds limit 0 bs = true ↔ limit < (extent bs).deepest := by
  have h := exceeds_iff_lt_foldl limit 0 0 bs
  rwa [or_iff_right (Nat.not_lt_zero limit)] at h

/-- The number that decides for a text with a root element is the depth of its tree. -/
theorem deepest_of_read {text : String} {root : Branch} (h : read text = .ok root) :
    (extent (utf8 text.toList)).deepest = root.depth := by
  refine eq_of_forall_lt_iff fun limit => ?_
  rw [← exceeds_iff_lt_deepest, exceeds_of_read h]

/-! ## Allowed depths -/

theorem levels_mono {maxDepth maxDepth' : Nat} (h : maxDepth ≤ maxDepth') :
    levels maxDepth ≤ levels maxDepth' := by
  unfold levels
  omega

theorem check_eq_ok_iff (maxDepth : Nat) (text : String) :
    check maxDepth text = .ok () ↔ (extent (utf8 text.toList)).deepest ≤ levels maxDepth := by
  rw [← Nat.not_lt, ← exceeds_iff_lt_deepest]
  unfold check
  split_ifs with h
  · exact iff_of_false nofun (not_not_intro h)
  · exact iff_of_true rfl h

/-- One number for all limits decides on a sequence of bytes, whatever they are: the deepest level
that is found by going on to the end. So a text that one depth allows is allowed by every greater
one, also where the number of levels can grow no more. -/
theorem deepest_decides (bs : List UInt8) (text : String) :
    (∀ limit, exceeds limit 0 bs = true ↔ limit < (extent bs).deepest)
      ∧ (∀ maxDepth, check maxDepth text = .ok () ↔
        (extent (utf8 text.toList)).deepest ≤ levels maxDepth)
      ∧ ∀ maxDepth maxDepth', maxDepth ≤ maxDepth' → check maxDepth text = .ok () →
        check maxDepth' text = .ok () := by
  refine ⟨fun limit => exceeds_iff_lt_deepest limit bs,
    fun maxDepth => check_eq_ok_iff maxDepth text, fun maxDepth maxDepth' hle h => ?_⟩
  rw [check_eq_ok_iff] at h ⊢
  exact h.trans (levels_mono hle)

/-- An end tag with nothing to end, a tag with its end in quotes before its end, and a comment
without an end. -/
theorem deepest_decides_unbalanced :
    exceeds 1 0 (utf8 "</a><a k='>'><b/></a></a><!-- <c>".toList) = true
      ∧ exceeds 2 0 (utf8 "</a><a k='>'><b/></a></a><!-- <c>".toList) = false
      ∧ check 0 "</a><a k='>'><b/></a></a><!-- <c>" = .ok ()
      ∧ check 18446744073709551615 "</a><a k='>'><b/></a></a><!-- <c>" = .ok () := by
  have hdeepest : (extent (utf8 "</a><a k='>'><b/></a></a><!-- <c>".toList)).deepest = 2 := by
    decide +kernel
  obtain ⟨hlimit, hallowed, hgreater⟩ := deepest_decides
    (utf8 "</a><a k='>'><b/></a></a><!-- <c>".toList) "</a><a k='>'><b/></a></a><!-- <c>"
  rw [hdeepest] at hlimit hallowed
  have hzero := (hallowed 0).2 (by decide)
  exact ⟨(hlimit 1).2 (by decide), Bool.eq_false_iff.2 (mt (hlimit 2).1 (by decide)), hzero,
    hgreater 0 _ (Nat.zero_le _) hzero⟩

end TypedDoc.Markup.Depth

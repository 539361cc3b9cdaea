import TypedDoc.Error
import TypedDoc.Text.Blank

/-!
# The depth of nesting in raw bytes

How deep elements lie is measured on the bytes of a text before anything is built from it. Only the
boundaries of tags, comments, sections and instructions are looked for, so that every sequence of
bytes has an answer, and the walk stops at the first start tag that lies too deep.
-/

namespace TypedDoc.Markup.Depth

/-- What follows the first occurrence of some bytes; nothing, if they do not occur. -/
def skipPast (ending : List UInt8) : List UInt8 → List UInt8
  | [] => []
  | b :: bs =>
    if ending.isPrefixOf (b :: bs) then bs.drop (ending.length - 1) else skipPast ending bs

/-- Whether a tag ends in a slash, and what follows its end, which is not between quotes. The byte
before is the one that the text was read up to. -/
def tagEnd (quote : Option UInt8) (before : UInt8) : List UInt8 → Bool × List UInt8
  | [] => (false, [])
  | b :: bs =>
    match quote with
    | some q => tagEnd (if b == q then none else some q) b bs
    | none =>
      if b == 62 then (before == 47, bs)
      else tagEnd (if b == 34 || b == 39 then some b else none) b bs

/-- What a less-than sign begins. -/
inductive Mark where
  /-- A comment, a section, an instruction or a declaration. -/
  | aside
  | endTag
  | startTag (isEmpty : Bool)
deriving DecidableEq

/-- What a less-than sign before some bytes begins, and what follows it. -/
def mark (bs : List UInt8) : Mark × List UInt8 :=
  match bs with
  | 33 :: 45 :: 45 :: rest => (.aside, skipPast [45, 45, 62] rest)
  | 33 :: 91 :: 67 :: 68 :: 65 :: 84 :: 65 :: 91 :: rest => (.aside, skipPast [93, 93, 62] rest)
  | 63 :: rest => (.aside, skipPast [63, 62] rest)
  | 33 :: rest => (.aside, skipPast [62] rest)
  | 47 :: rest => (.endTag, skipPast [62] rest)
  | rest =>
    let (isEmpty, rest) := tagEnd none 60 rest
    (.startTag isEmpty, rest)

theorem length_skipPast_le (ending bs : List UInt8) : (skipPast ending bs).length ≤ bs.length := by
  induction bs with
  | nil => exact Nat.le_refl _
  | cons b bs ih =>
    simp only [skipPast]
    split
    · rw [List.length_drop, List.length_cons]; omega
    · exact Nat.le_succ_of_le ih

theorem length_tagEnd_le (quote : Option UInt8) (before : UInt8) (bs : List UInt8) :
    (tagEnd quote before bs).2.length ≤ bs.length := by
  induction bs generalizing quote before with
  | nil => exact Nat.le_refl _
  | cons b bs ih =>
    simp only [tagEnd]
    split
    · exact Nat.le_succ_of_le (ih _ _)
    · split
      · exact Nat.le_succ _
      · exact Nat.le_succ_of_le (ih _ _)

theorem length_mark_le (bs : List UInt8) : (mark bs).2.length ≤ bs.length := by
  unfold mark
  split
  case h_6 => exact length_tagEnd_le _ _ _
  all_goals
    refine Nat.le_trans (length_skipPast_le _ _) ?_
    simp only [List.length_cons]
    omega

/-- Whether a start tag lies deeper than some number of levels, with some elements open already.
The outermost element is on the first level. -/
def exceeds (levels depth : Nat) (bs : List UInt8) : Bool :=
  match _h : bs.dropWhile (· != 60) with
  | [] => false
  | _ :: rest =>
    match (mark rest).1 with
    | .aside => exceeds levels depth (mark rest).2
    | .endTag => exceeds levels (depth - 1) (mark rest).2
    | .startTag isEmpty =>
      if levels < depth + 1 then true
      else exceeds levels (if isEmpty then depth else depth + 1) (mark rest).2
termination_by bs.length
decreasing_by
  all_goals
    have h1 := (List.dropWhile_sublist (fun b : UInt8 => b != 60) (l := bs)).length_le
    have h2 := length_mark_le rest
    rw [_h, List.length_cons] at h1
    omega

/-- The levels that decoding to some depth allows: the root and the element of the document come on
top of it. Numbers of levels have 64 bits. -/
def levels (maxDepth : Nat) : Nat := min (maxDepth + 2) ((1 <<< 64) - 1)

/-- Refuses a text with an element that lies deeper than decoding would go. -/
def check (maxDepth : Nat) (text : String) : Except Error Unit :=
  if exceeds (levels maxDepth) 0 (Text.utf8 text.toList) then
    .error (.depthLimitExceeded maxDepth)
  else .ok ()

end TypedDoc.Markup.Depth

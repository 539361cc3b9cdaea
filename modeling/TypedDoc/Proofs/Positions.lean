import TypedDoc.Proofs.Levels

/-!
# The walk over bytes by positions

The walk over the bytes of a text can be told by positions in them. One loop goes from less-than
sign to less-than sign, and one in a start tag from quote to quote; each turn slices the bytes from
where it stands and searches the slice. Here a slice from past the end is nothing, and so is a byte
where there is none, and every turn that would read them (`turn`, `tagTurn`). Positions need no
width, since none that is stepped to or sliced from passes the number of bytes.

A loop has with it that each turn but the last steps ahead, and not past the end, so it can be run
(`Loop.run`). At each position a turn either answers as the walk over the bytes that are left does,
or steps to where that walk has the same answer ahead (`tagTurn_keeps`, `turn_keeps`). So the loops
come to the answer of the walk, and read nothing out of range (`walk_in_range`).
-/

namespace TypedDoc.Markup.Depth

/-! ## Loops that step ahead -/

section Loops

variable {σ α : Type}

/-- What a turn of a loop comes to: another turn, or an answer. -/
inductive Turn (σ α : Type) where
  | again (s : σ)
  | done (a : α)
deriving DecidableEq

/-- An answer is the given one, and another turn leads on to it. -/
def Turn.Keeps (valid : σ → Prop) (value : σ → α) (a : α) : Turn σ α → Prop
  | .again s => valid s ∧ value s = a
  | .done b => b = a

theorem Turn.Keeps.mono {valid valid' : σ → Prop} (h : ∀ s, valid s → valid' s) {value : σ → α}
    {a : α} : ∀ {t : Turn σ α}, t.Keeps valid value a → t.Keeps valid' value a
  | .again s, hk => ⟨h s hk.1, hk.2⟩
  | .done _, hk => hk

/-- Turns over positions, each of which ends the loop or steps ahead, and not past the end. -/
structure Loop (σ α : Type) where
  /-- A turn from a state; nothing, if it would read out of range. -/
  turn : σ → Option (Turn σ α)
  pos : σ → Nat
  size : Nat
  advances {s s' : σ} : turn s = some (.again s') → pos s < pos s' ∧ pos s' ≤ size

namespace Loop

/-- The answer of the last turn; nothing, if some turn would read out of range. -/
def run (l : Loop σ α) (s : σ) : Option α :=
  match _h : l.turn s with
  | none => none
  | some (.done a) => some a
  | some (.again s') => l.run s'
termination_by l.size - l.pos s
decreasing_by
  have := l.advances _h
  omega

theorem run_eq (l : Loop σ α) (valid : σ → Prop) (value : σ → α)
    (hkeeps : ∀ s, valid s → ∃ t, l.turn s = some t ∧ t.Keeps valid value (value s)) (s : σ)
    (hs : valid s) : l.run s = some (value s) := by
  -- the run tells what each turn came to, and `hkeeps` what it leaves to be shown
  induction s using run.induct l with
  | case1 s hnone =>
    obtain ⟨t, ht, -⟩ := hkeeps s hs
    simp [hnone] at ht
  | case2 s a hdone =>
    obtain ⟨t, ht, hk⟩ := hkeeps s hs
    obtain rfl : Turn.done a = t := Option.some.inj (hdone.symm.trans ht)
    rw [run]
    split <;> simp_all [Turn.Keeps]
  | case3 s s' hagain ih =>
    obtain ⟨t, ht, hk⟩ := hkeeps s hs
    obtain rfl : Turn.again s' = t := Option.some.inj (hagain.symm.trans ht)
    rw [run]
    split <;> simp_all [Turn.Keeps]

/-- One state comes after another in a turn. -/
def Follows (l : Loop σ α) (s s' : σ) : Prop := l.turn s = some (.again s')

/-- Each turn that another follows takes up a position of its own. -/
theorem length_le (l : Loop σ α) : ∀ {s : σ} {ss : List σ}, l.pos s ≤ l.size →
    List.IsChain l.Follows (s :: ss) → l.pos s + ss.length ≤ l.size
  | s, [], hs, _ => hs
  | s, s' :: ss, _, h => by
    rw [List.isChain_cons_cons] at h
    obtain ⟨hlt, hle⟩ := l.advances h.1
    have := l.length_le hle h.2
    rw [List.length_cons]
    omega

end Loop

end Loops

/-! ## Reading at positions -/

/-- The bytes from a position on. -/
def slice? (bs : List UInt8) (pos : Nat) : Option (List UInt8) :=
  if pos ≤ bs.length then some (bs.drop pos) else none

/-- The byte before a position. -/
def byteBefore? (bs : List UInt8) (pos : Nat) : Option UInt8 :=
  if pos = 0 then none else bs[pos - 1]?

/-- The first position that an ending begins at. -/
def indexOf? (ending : List UInt8) : List UInt8 → Option Nat
  | [] => none
  | b :: bs =>
    if ending.isPrefixOf (b :: bs) then some 0 else (indexOf? ending bs).map (· + 1)

/-- The position after the first ending from a position on; the end, if there is no ending. -/
def skipPast? (bs : List UInt8) (start : Nat) (ending : List UInt8) : Option Nat := do
  let start := min start bs.length
  let rest ← slice? bs start
  match indexOf? ending rest with
  | some i => return start + i + ending.length
  | none => return bs.length

/-- Where what is left of some bytes begins in them. -/
def position (bs rest : List UInt8) : Nat := bs.length - rest.length

theorem slice?_of_le {bs : List UInt8} {pos : Nat} (h : pos ≤ bs.length) :
    slice? bs pos = some (bs.drop pos) := if_pos h

theorem exists_slice?_iff {bs : List UInt8} {pos : Nat} :
    (∃ rest, slice? bs pos = some rest) ↔ pos ≤ bs.length := by
  simp [slice?]

theorem byteBefore?_of_le {bs : List UInt8} {pos : Nat} (h0 : 0 < pos) (hpos : pos ≤ bs.length) :
    byteBefore? bs pos = some (bs.getD (pos - 1) 60) := by
  have hlt : pos - 1 < bs.length := by omega
  rw [byteBefore?, if_neg (Nat.ne_of_gt h0), List.getD_eq_getElem?_getD,
    List.getElem?_eq_getElem hlt, Option.getD_some]

theorem exists_byteBefore?_iff {bs : List UInt8} {pos : Nat} :
    (∃ b, byteBefore? bs pos = some b) ↔ 1 ≤ pos ∧ pos ≤ bs.length := by
  refine ⟨fun ⟨b, hb⟩ => ?_, fun ⟨h0, hpos⟩ => ⟨_, byteBefore?_of_le h0 hpos⟩⟩
  rw [byteBefore?] at hb
  split_ifs at hb with h0
  obtain ⟨hlt, -⟩ := List.getElem?_eq_some_iff.1 hb
  omega

/-! What a slice is divided into stands at the positions that count from the start of the slice. -/

theorem drop_of_slice {bs xs ys : List UInt8} {pos : Nat} (h : bs.drop pos = xs ++ ys) :
    bs.drop (pos + xs.length) = ys := by
  rw [← List.drop_drop, h, List.drop_left]

theorem drop_succ_of_slice {bs xs ys : List UInt8} {b : UInt8} {pos : Nat}
    (h : bs.drop pos = xs ++ b :: ys) : bs.drop (pos + xs.length + 1) = ys := by
  rw [← List.drop_drop, drop_of_slice h]
  rfl

theorem getElem?_of_slice {bs xs ys : List UInt8} {b : UInt8} {pos : Nat}
    (h : bs.drop pos = xs ++ b :: ys) : bs[pos + xs.length]? = some b := by
  rw [← List.head?_drop, drop_of_slice h]
  rfl

theorem length_of_slice {bs xs ys : List UInt8} {b : UInt8} {pos : Nat}
    (h : bs.drop pos = xs ++ b :: ys) : bs.length = pos + xs.length + 1 + ys.length := by
  have hlen := congrArg List.length h
  rw [List.length_drop, List.length_append, List.length_cons] at hlen
  omega

theorem position_drop {bs : List UInt8} {pos : Nat} (h : pos ≤ bs.length) :
    position bs (bs.drop pos) = pos := by
  rw [position, List.length_drop]
  omega

/-- What is left of a slice begins in it. -/
theorem position_of_suffix {bs rest : List UInt8} {start : Nat} (hstart : start ≤ bs.length)
    (h : rest <:+ bs.drop start) :
    start ≤ position bs rest ∧ position bs rest ≤ bs.length
      ∧ bs.drop (position bs rest) = rest := by
  have hle := h.length_le
  rw [List.length_drop] at hle
  have hdrop := List.suffix_iff_eq_drop.1 (h.trans (List.drop_suffix start bs))
  refine ⟨?_, Nat.sub_le _ _, hdrop.symm⟩
  rw [position]
  omega

/-! ## Searching -/

/-- Either no byte is of a kind, or the first one that is divides the bytes. -/
theorem findIdx?_cases (p : UInt8 → Bool) (bs : List UInt8) :
    (bs.findIdx? p = none ∧ ∀ b ∈ bs, p b = false)
      ∨ ∃ xs b ys, bs = xs ++ b :: ys ∧ bs.findIdx? p = some xs.length ∧ p b = true
        ∧ ∀ x ∈ xs, p x = false := by
  rcases h : bs.findIdx? p with _ | i
  · exact .inl ⟨rfl, List.findIdx?_eq_none_iff.1 h⟩
  · obtain ⟨hi, hp, hbefore⟩ := List.findIdx?_eq_some_iff_getElem.1 h
    refine .inr ⟨bs.take i, bs[i], bs.drop (i + 1), ?_, ?_, hp, fun x hx => ?_⟩
    · rw [← List.drop_eq_getElem_cons hi, List.take_append_drop]
    · rw [List.length_take_of_le hi.le]
    · obtain ⟨j, hj, rfl⟩ := List.mem_take_iff_getElem.1 hx
      exact Bool.eq_false_iff.2 (hbefore j (by omega))

theorem idxOf?_cases (q : UInt8) (bs : List UInt8) :
    (bs.idxOf? q = none ∧ q ∉ bs)
      ∨ ∃ xs ys, bs = xs ++ q :: ys ∧ bs.idxOf? q = some xs.length ∧ q ∉ xs := by
  rcases findIdx?_cases (· == q) bs with ⟨hnone, -⟩ | ⟨xs, b, ys, hbs, hsome, hb, hxs⟩
  · exact .inl ⟨hnone, List.idxOf?_eq_none_iff.1 hnone⟩
  · obtain rfl : b = q := by simpa using hb
    exact .inr ⟨xs, ys, hbs, hsome, fun hq => by simpa using hxs _ hq⟩

theorem indexOf?_cases {ending : List UInt8} (he : ending ≠ []) (bs : List UInt8) :
    (indexOf? ending bs = none ∧ skipPast ending bs = [])
      ∨ ∃ i, indexOf? ending bs = some i ∧ i + ending.length ≤ bs.length
        ∧ skipPast ending bs = bs.drop (i + ending.length) := by
  have hpos : 0 < ending.length := List.length_pos_iff.2 he
  induction bs with
  | nil => exact .inl ⟨rfl, rfl⟩
  | cons b bs ih =>
    by_cases hp : ending.isPrefixOf (b :: bs)
    · refine .inr ⟨0, by rw [indexOf?, if_pos hp], ?_, ?_⟩
      · rw [Nat.zero_add]
        exact (List.isPrefixOf_iff_prefix.1 hp).length_le
      · rw [skipPast, if_pos hp, Nat.zero_add, ← Nat.sub_add_cancel hpos, List.drop_succ_cons]
        rfl
    · rw [indexOf?, if_neg hp, skipPast, if_neg hp]
      rcases ih with ⟨hnone, hskip⟩ | ⟨i, hsome, hle, hskip⟩
      · exact .inl ⟨by rw [hnone]; rfl, hskip⟩
      · refine .inr ⟨i + 1, by rw [hsome]; rfl, ?_, ?_⟩
        · rw [List.length_cons]
          omega
        · rw [hskip, Nat.add_right_comm, List.drop_succ_cons]

theorem skipPast?_eq {ending : List UInt8} (he : ending ≠ []) (bs : List UInt8) (start : Nat) :
    skipPast? bs start ending = some (position bs (skipPast ending (bs.drop start))) := by
  have hslice := slice?_of_le (Nat.min_le_right start bs.length)
  have hmin : bs.drop (min start bs.length) = bs.drop start := by
    rcases Nat.le_total start bs.length with hle | hle
    · rw [Nat.min_eq_left hle]
    · rw [Nat.min_eq_right hle, List.drop_length, List.drop_eq_nil_of_le hle]
  rw [hmin] at hslice
  rcases indexOf?_cases he (bs.drop start) with ⟨hnone, hskip⟩ | ⟨i, hsome, hle, hskip⟩
  · simp [skipPast?, hslice, hnone, hskip, position]
  · -- an ending that is found takes up some bytes, so the start is before the end
    have hpos : 0 < ending.length := List.length_pos_iff.2 he
    rw [List.length_drop] at hle
    have hposition : position bs (skipPast ending (bs.drop start)) = start + i + ending.length := by
      rw [hskip, List.drop_drop, ← Nat.add_assoc, position_drop (by omega)]
    have hstart : min start bs.length = start := by omega
    rw [hstart] at hslice
    rw [hposition]
    simp [skipPast?, hslice, hsome, hstart]

/-! ## To the end of a start tag -/

/-- The end of a tag, or a quote. -/
def isTagByte (b : UInt8) : Bool := b == 62 || b == 34 || b == 39

/-- A turn on the way to the end of a start tag. The answer is whether a slash stands before the
end, and the position after it. -/
def tagTurn (bs : List UInt8) (pos : Nat) : Option (Turn Nat (Bool × Nat)) := do
  let rest ← slice? bs pos
  match rest.findIdx? isTagByte with
  | none => return .done (false, bs.length)
  | some offset =>
    let b ← bs[pos + offset]?
    if b == 62 then
      let before ← byteBefore? bs (pos + offset)
      return .done (before == 47, pos + offset + 1)
    else
      let value ← slice? bs (pos + offset + 1)
      match value.idxOf? b with
      | some i => return .again (pos + offset + 2 + i)
      | none => return .again bs.length

/-- All that a turn from a position up to the end can come to. -/
inductive TagStep (bs : List UInt8) (pos : Nat) : Option (Turn Nat (Bool × Nat)) → Prop
  /-- No end and no quote is left. -/
  | unended (h : ∀ b ∈ bs.drop pos, isTagByte b = false) :
    TagStep bs pos (some (.done (false, bs.length)))
  | ended (xs ys : List UInt8) (h : bs.drop pos = xs ++ 62 :: ys)
    (hxs : ∀ x ∈ xs, isTagByte x = false) :
    TagStep bs pos ((byteBefore? bs (pos + xs.length)).map fun before =>
      .done (before == 47, pos + xs.length + 1))
  | quoted (xs : List UInt8) (q : UInt8) (value ys : List UInt8)
    (h : bs.drop pos = xs ++ q :: (value ++ q :: ys)) (hxs : ∀ x ∈ xs, isTagByte x = false)
    (hq : q = 34 ∨ q = 39) (hvalue : q ∉ value) :
    TagStep bs pos (some (.again (pos + xs.length + 2 + value.length)))
  /-- A value has no second quote. -/
  | unquoted (xs : List UInt8) (q : UInt8) (ys : List UInt8) (h : bs.drop pos = xs ++ q :: ys)
    (hxs : ∀ x ∈ xs, isTagByte x = false) (hq : q = 34 ∨ q = 39) (hys : q ∉ ys) :
    TagStep bs pos (some (.again bs.length))

theorem tagTurn_step {bs : List UInt8} {pos : Nat} (hpos : pos ≤ bs.length) :
    TagStep bs pos (tagTurn bs pos) := by
  have hslice := slice?_of_le hpos
  rcases findIdx?_cases isTagByte (bs.drop pos) with
    ⟨hnone, hplain⟩ | ⟨xs, b, ys, hdrop, hsome, hb, hxs⟩
  · have ht : tagTurn bs pos = some (.done (false, bs.length)) := by
      simp [tagTurn, hslice, hnone]
    exact ht ▸ .unended hplain
  · have hget := getElem?_of_slice hdrop
    by_cases h62 : b = 62
    · subst h62
      have ht : tagTurn bs pos = (byteBefore? bs (pos + xs.length)).map fun before =>
          .done (before == 47, pos + xs.length + 1) := by
        cases hbefore : byteBefore? bs (pos + xs.length) <;>
          simp [tagTurn, hslice, hsome, hget, hbefore]
      exact ht ▸ .ended xs ys hdrop hxs
    · have hquote : b = 34 ∨ b = 39 := by simpa [isTagByte, h62] using hb
      have hvalue : slice? bs (pos + xs.length + 1) = some ys := by
        have hlen := length_of_slice hdrop
        rw [slice?_of_le (by omega), drop_succ_of_slice hdrop]
      rcases idxOf?_cases b ys with ⟨hnone, hno⟩ | ⟨value, rest, rfl, hfound, hno⟩
      · have ht : tagTurn bs pos = some (.again bs.length) := by
          simp [tagTurn, hslice, hsome, hget, h62, hvalue, hnone]
        exact ht ▸ .unquoted xs b ys hdrop hxs hquote hno
      · have ht : tagTurn bs pos = some (.again (pos + xs.length + 2 + value.length)) := by
          simp [tagTurn, hslice, hsome, hget, h62, hvalue, hfound]
        exact ht ▸ .quoted xs b value rest hdrop hxs hquote hno

theorem tagTurn_advances {bs : List UInt8} {pos pos' : Nat}
    (h : tagTurn bs pos = some (.again pos')) : pos < pos' ∧ pos' ≤ bs.length := by
  by_cases hpos : pos ≤ bs.length
  · have hstep := tagTurn_step hpos
    generalize tagTurn bs pos = t at h hstep
    cases hstep with
    | unended => cases h
    | ended xs ys =>
      obtain ⟨before, -, hdone⟩ := Option.map_eq_some_iff.1 h
      cases hdone
    | quoted xs q value ys hdrop =>
      obtain rfl := Turn.again.inj (Option.some.inj h)
      have hlen := length_of_slice hdrop
      rw [List.length_append, List.length_cons] at hlen
      omega
    | unquoted xs q ys hdrop =>
      obtain rfl := Turn.again.inj (Option.some.inj h)
      have hlen := length_of_slice hdrop
      omega
  · have hnone : slice? bs pos = none := if_neg hpos
    simp [tagTurn, hnone] at h

/-- The loop to the end of a start tag. -/
def tagLoop (bs : List UInt8) : Loop Nat (Bool × Nat) where
  turn := tagTurn bs
  pos := id
  size := bs.length
  advances := tagTurn_advances

/-- The end of a tag in the bytes from a position on. -/
def tagEndAt (bs : List UInt8) (pos : Nat) : Bool × List UInt8 :=
  tagEnd none (bs.getD (pos - 1) 60) (bs.drop pos)

/-- The end of a tag with the position where what follows it begins. -/
def tagAnswer (bs : List UInt8) (pos : Nat) : Bool × Nat :=
  ((tagEndAt bs pos).1, position bs (tagEndAt bs pos).2)

theorem passed_iff {b : UInt8} : Passed b none ↔ isTagByte b = false := by
  simp [Passed, isTagByte, and_assoc]

theorem tagEnd_unquoted {q : UInt8} {ys : List UInt8} (h : q ∉ ys) (before : UInt8) :
    tagEnd (some q) before ys = (false, []) := by
  have hpassed : ∀ b ∈ ys, Passed b (some q) := fun b hb => ne_of_mem_of_not_mem hb h
  rw [← List.append_nil ys, tagEnd_passed hpassed]
  rfl

theorem tagEndAt_succ {bs xs ys : List UInt8} {b : UInt8} {pos : Nat}
    (h : bs.drop pos = xs ++ b :: ys) : tagEndAt bs (pos + xs.length + 1) = tagEnd none b ys := by
  rw [tagEndAt, Nat.add_sub_cancel, List.getD_eq_getElem?_getD, getElem?_of_slice h,
    Option.getD_some, drop_succ_of_slice h]

/-- Bytes that are neither an end nor a quote only change which byte stands before. -/
theorem tagEndAt_plain {bs xs ys : List UInt8} {pos : Nat} (h : bs.drop pos = xs ++ ys)
    (hxs : ∀ x ∈ xs, isTagByte x = false) : tagEndAt bs pos = tagEndAt bs (pos + xs.length) := by
  rcases List.eq_nil_or_concat' xs with rfl | ⟨s, b, rfl⟩
  · rfl
  · have hlast := tagEndAt_succ (by rw [h, List.append_assoc]; rfl : bs.drop pos = s ++ b :: ys)
    rw [List.length_append, List.length_singleton, ← Nat.add_assoc, hlast, tagEndAt, h,
      tagEnd_passed fun x hx => passed_iff.2 (hxs x hx), List.getLastD_concat]

/-- A position to turn from has a byte before it: the turn reads no other that may not be there. -/
theorem tagTurn_keeps {bs : List UInt8} {pos : Nat} (h0 : 0 < pos) (hpos : pos ≤ bs.length) :
    ∃ t, tagTurn bs pos = some t
      ∧ t.Keeps (fun pos' => 0 < pos' ∧ pos' ≤ bs.length) (tagAnswer bs) (tagAnswer bs pos) := by
  have hend : tagEndAt bs bs.length = (false, []) := by
    rw [tagEndAt, List.drop_length]
    rfl
  have hstep := tagTurn_step hpos
  generalize tagTurn bs pos = t at hstep
  cases hstep with
  | unended hplain =>
    have htag := tagEndAt_plain (List.append_nil _).symm hplain
    rw [List.length_drop, Nat.add_sub_cancel' hpos, hend] at htag
    refine ⟨_, rfl, ?_⟩
    rw [Turn.Keeps, tagAnswer, htag]
    rfl
  | ended xs ys hdrop hxs =>
    have hlen := length_of_slice hdrop
    have htag : tagEndAt bs pos = (bs.getD (pos + xs.length - 1) 60 == 47, ys) := by
      rw [tagEndAt_plain hdrop hxs, tagEndAt, drop_of_slice hdrop]
      rfl
    have hposition : position bs ys = pos + xs.length + 1 := by
      rw [position]
      omega
    rw [byteBefore?_of_le (by omega) (by omega)]
    refine ⟨_, rfl, ?_⟩
    rw [Turn.Keeps, tagAnswer, htag, hposition]
  | quoted xs q value ys hdrop hxs hq hvalue =>
    have hlen := length_of_slice hdrop
    rw [List.length_append, List.length_cons] at hlen
    have hrest : bs.drop pos = (xs ++ q :: value) ++ q :: ys := by rw [hdrop]; simp
    have hnext : tagEndAt bs (pos + xs.length + 2 + value.length) = tagEnd none q ys := by
      rw [← tagEndAt_succ hrest, List.length_append, List.length_cons]
      congr 1
      omega
    have htag : tagEndAt bs pos = tagEnd none q ys := by
      rw [tagEndAt_plain hdrop hxs, tagEndAt, drop_of_slice hdrop, tagEnd_quote hq,
        tagEnd_value hvalue]
    refine ⟨_, rfl, ⟨by omega, by omega⟩, ?_⟩
    rw [tagAnswer, tagAnswer, hnext, htag]
  | unquoted xs q ys hdrop hxs hq hys =>
    have htag : tagEndAt bs pos = (false, []) := by
      rw [tagEndAt_plain hdrop hxs, tagEndAt, drop_of_slice hdrop, tagEnd_quote hq,
        tagEnd_unquoted hys]
    refine ⟨_, rfl, ⟨by omega, Nat.le_refl _⟩, ?_⟩
    rw [tagAnswer, tagAnswer, hend, htag]

theorem tagLoop_run {bs : List UInt8} {pos : Nat} (h0 : 0 < pos) (hpos : pos ≤ bs.length) :
    (tagLoop bs).run pos = some (tagAnswer bs pos) :=
  (tagLoop bs).run_eq _ _ (fun _ hs => tagTurn_keeps hs.1 hs.2) pos ⟨h0, hpos⟩

/-! ## From less-than sign to less-than sign -/

/-- How a piece of markup that is no start tag begins and ends. -/
structure Enclosure where
  mark : Mark
  /-- The number of bytes that come before the ending is looked for. -/
  opening : Nat
  ending : List UInt8

/-- The piece that a less-than sign before some bytes begins, if that is no start tag. -/
def enclosure? : List UInt8 → Option Enclosure
  | 33 :: 45 :: 45 :: _ => some ⟨.aside, 3, [45, 45, 62]⟩
  | 33 :: 91 :: 67 :: 68 :: 65 :: 84 :: 65 :: 91 :: _ => some ⟨.aside, 8, [93, 93, 62]⟩
  | 63 :: _ => some ⟨.aside, 1, [63, 62]⟩
  | 33 :: _ => some ⟨.aside, 1, [62]⟩
  | 47 :: _ => some ⟨.endTag, 1, [62]⟩
  | _ => none

theorem mark_of_enclosure {bs : List UInt8} {e : Enclosure} (h : enclosure? bs = some e) :
    e.ending ≠ [] ∧ (e.mark = .aside ∨ e.mark = .endTag)
      ∧ mark bs = (e.mark, skipPast e.ending (bs.drop e.opening)) := by
  unfold enclosure? at h
  split at h
  case h_6 => cases h
  all_goals
    obtain rfl := Option.some.inj h
    refine ⟨List.cons_ne_nil _ _, by simp, ?_⟩
  case h_4 tail hcomment hsection => simp_all [mark]
  all_goals rfl

theorem mark_of_enclosure_eq_none {bs : List UInt8} (h : enclosure? bs = none) :
    mark bs = (.startTag (tagEnd none 60 bs).1, (tagEnd none 60 bs).2) := by
  unfold mark
  split
  case h_6 => rfl
  case h_4 tail hcomment hsection => simp_all [enclosure?]
  all_goals cases h

theorem skipPast_suffix (ending bs : List UInt8) : skipPast ending bs <:+ bs := by
  induction bs with
  | nil => exact List.suffix_rfl
  | cons b bs ih =>
    rw [skipPast]
    split_ifs
    · exact (List.drop_suffix _ bs).trans (List.suffix_cons b bs)
    · exact ih.trans (List.suffix_cons b bs)

theorem tagEnd_suffix (quote : Option UInt8) (before : UInt8) (bs : List UInt8) :
    (tagEnd quote before bs).2 <:+ bs := by
  induction bs generalizing quote before with
  | nil => exact List.suffix_rfl
  | cons b bs ih =>
    simp only [tagEnd]
    split
    · exact (ih _ _).trans (List.suffix_cons b bs)
    · split_ifs
      · exact List.suffix_cons b bs
      · exact (ih _ _).trans (List.suffix_cons b bs)
      · exact (ih _ _).trans (List.suffix_cons b bs)

theorem mark_suffix (bs : List UInt8) : (mark bs).2 <:+ bs := by
  rcases he : enclosure? bs with _ | e
  · rw [mark_of_enclosure_eq_none he]
    exact tagEnd_suffix none 60 bs
  · rw [(mark_of_enclosure he).2.2]
    exact (skipPast_suffix _ _).trans (List.drop_suffix _ _)

/-- How far the bytes have been read, and the number of open elements there. -/
structure Scan where
  pos : Nat
  opened : Nat
deriving DecidableEq

/-- A turn of the loop over all bytes. The answer is whether a start tag lies too deep. -/
def turn (limit : Nat) (bs : List UInt8) (s : Scan) : Option (Turn Scan Bool) := do
  let rest ← slice? bs s.pos
  match rest.idxOf? 60 with
  | none => return .done false
  | some offset =>
    let start := s.pos + offset + 1
    let rest ← slice? bs start
    match enclosure? rest with
    | some e =>
      let pos ← skipPast? bs (start + e.opening) e.ending
      return .again ⟨pos, e.mark.opened s.opened⟩
    | none =>
      if limit < s.opened + 1 then return .done true
      let (isEmpty, pos) ← (tagLoop bs).run start
      return .again ⟨pos, (Mark.startTag isEmpty).opened s.opened⟩

/-- All that a turn from a position up to the end can come to. -/
inductive ScanStep (limit : Nat) (bs : List UInt8) (s : Scan) : Option (Turn Scan Bool) → Prop
  /-- No less-than sign is left. -/
  | finished (h : 60 ∉ bs.drop s.pos) : ScanStep limit bs s (some (.done false))
  | tooDeep (xs ys rest : List UInt8) (m : Mark) (h : bs.drop s.pos = xs ++ 60 :: ys)
    (hxs : 60 ∉ xs) (hm : mark ys = (m, rest)) (hl : limit < m.deepest s.opened 0) :
    ScanStep limit bs s (some (.done true))
  | next (xs ys rest : List UInt8) (m : Mark) (h : bs.drop s.pos = xs ++ 60 :: ys)
    (hxs : 60 ∉ xs) (hm : mark ys = (m, rest)) (hl : ¬ limit < m.deepest s.opened 0) :
    ScanStep limit bs s (some (.again ⟨position bs rest, m.opened s.opened⟩))

theorem turn_step (limit : Nat) {bs : List UInt8} {s : Scan} (hs : s.pos ≤ bs.length) :
    ScanStep limit bs s (turn limit bs s) := by
  have hslice := slice?_of_le hs
  rcases idxOf?_cases 60 (bs.drop s.pos) with ⟨hnone, hno⟩ | ⟨xs, ys, hdrop, hsome, hno⟩
  · have ht : turn limit bs s = some (.done false) := by simp [turn, hslice, hnone]
    exact ht ▸ .finished hno
  · have hstart : s.pos + xs.length + 1 ≤ bs.length := by
      have := length_of_slice hdrop
      omega
    have hrest := slice?_of_le hstart
    rw [drop_succ_of_slice hdrop] at hrest
    rcases he : enclosure? ys with _ | e
    · have hm := mark_of_enclosure_eq_none he
      by_cases hl : limit < s.opened + 1
      · have ht : turn limit bs s = some (.done true) := by
          simp [turn, hslice, hsome, hrest, he, hl]
        exact ht ▸ .tooDeep xs ys _ _ hdrop hno hm (by rwa [Mark.deepest, Nat.zero_max])
      · -- the less-than sign stands before the start, so there is a byte to read back
        have hrun := tagLoop_run (Nat.succ_pos _) hstart
        rw [tagAnswer, tagEndAt_succ hdrop] at hrun
        have ht : turn limit bs s = some (.again ⟨position bs (tagEnd none 60 ys).2,
            (Mark.startTag (tagEnd none 60 ys).1).opened s.opened⟩) := by
          simp [turn, hslice, hsome, hrest, he, hl, hrun]
        exact ht ▸ .next xs ys _ _ hdrop hno hm (by rwa [Mark.deepest, Nat.zero_max])
    · obtain ⟨hending, hmark, hm⟩ := mark_of_enclosure he
      have hskip := skipPast?_eq hending bs (s.pos + xs.length + 1 + e.opening)
      rw [← List.drop_drop, drop_succ_of_slice hdrop] at hskip
      have ht : turn limit bs s = some (.again
          ⟨position bs (skipPast e.ending (ys.drop e.opening)), e.mark.opened s.opened⟩) := by
        simp [turn, hslice, hsome, hrest, he, hskip]
      have hl : ¬ limit < e.mark.deepest s.opened 0 := by
        rcases hmark with hmark | hmark <;> rw [hmark] <;> exact Nat.not_lt_zero limit
      exact ht ▸ .next xs ys _ _ hdrop hno hm hl

/-- The answer of the walk over the bytes that a scan has left. -/
def scanAnswer (limit : Nat) (bs : List UInt8) (s : Scan) : Bool :=
  exceeds limit s.opened (bs.drop s.pos)

theorem turn_keeps (limit : Nat) {bs : List UInt8} {s : Scan} (hs : s.pos ≤ bs.length) :
    ∃ t, turn limit bs s = some t
      ∧ t.Keeps (fun s' => s.pos < s'.pos ∧ s'.pos ≤ bs.length) (scanAnswer limit bs)
        (scanAnswer limit bs s) := by
  have hstep := turn_step limit hs
  generalize turn limit bs s = t at hstep
  cases hstep with
  | finished hno =>
    have htext := exceeds_text limit s.opened hno []
    rw [List.append_nil, exceeds_nil] at htext
    exact ⟨_, rfl, htext.symm⟩
  | tooDeep xs ys rest m hdrop hno hm hl =>
    have hexceeds := (exceeds_mark_iff hm limit s.opened 0).2 (.inl hl)
    rw [or_iff_right (Nat.not_lt_zero limit)] at hexceeds
    refine ⟨_, rfl, ?_⟩
    rw [Turn.Keeps, scanAnswer, hdrop, exceeds_text limit s.opened hno, hexceeds]
  | next xs ys rest m hdrop hno hm hl =>
    have hrest : rest <:+ bs.drop (s.pos + xs.length + 1) := by
      have hsuffix := mark_suffix ys
      rwa [hm, ← drop_succ_of_slice hdrop] at hsuffix
    have hlen := length_of_slice hdrop
    obtain ⟨hle, hend, hleft⟩ := position_of_suffix (by omega) hrest
    have hexceeds := exceeds_mark_iff hm limit s.opened 0
    rw [or_iff_right (Nat.not_lt_zero limit), or_iff_right hl, ← Bool.eq_iff_iff] at hexceeds
    refine ⟨_, rfl, ⟨Nat.lt_of_succ_le (Nat.le_trans (by omega) hle), hend⟩, ?_⟩
    rw [scanAnswer, scanAnswer, hleft, hdrop, exceeds_text limit s.opened hno, hexceeds]

theorem turn_advances {limit : Nat} {bs : List UInt8} {s s' : Scan}
    (h : turn limit bs s = some (.again s')) : s.pos < s'.pos ∧ s'.pos ≤ bs.length := by
  by_cases hs : s.pos ≤ bs.length
  · obtain ⟨t, ht, hk⟩ := turn_keeps limit hs
    obtain rfl := Option.some.inj (h.symm.trans ht)
    exact hk.1
  · have hnone : slice? bs s.pos = none := if_neg hs
    simp [turn, hnone] at h

/-- The loop over all bytes. -/
def scanLoop (limit : Nat) (bs : List UInt8) : Loop Scan Bool where
  turn := turn limit bs
  pos := Scan.pos
  size := bs.length
  advances := turn_advances

theorem scanLoop_run (limit : Nat) {bs : List UInt8} {s : Scan} (hs : s.pos ≤ bs.length) :
    (scanLoop limit bs).run s = some (scanAnswer limit bs s) := by
  refine (scanLoop limit bs).run_eq (fun s => s.pos ≤ bs.length) (scanAnswer limit bs) ?_ s hs
  intro s hs
  obtain ⟨t, ht, hk⟩ := turn_keeps limit hs
  exact ⟨t, ht, hk.mono fun _ h => h.2⟩

/-- By positions, the walk over any bytes comes to its answer with any limit. No turn from a
position up to the end reads out of range: it slices from no position past the end, and in a start
tag, where it turns from positions that a byte stands before, it reads back none before the first.
Each turn but the last steps ahead and not past the end, so no more turns than there are bytes have
another after them. -/
theorem walk_in_range (limit : Nat) (bs : List UInt8) :
    (scanLoop limit bs).run ⟨0, 0⟩ = some (exceeds limit 0 bs)
      ∧ (∀ pos, (∃ rest, slice? bs pos = some rest) ↔ pos ≤ bs.length)
      ∧ (∀ pos, (∃ b, byteBefore? bs pos = some b) ↔ 1 ≤ pos ∧ pos ≤ bs.length)
      ∧ (∀ s, s.pos ≤ bs.length → ∃ t, turn limit bs s = some t)
      ∧ (∀ s s', turn limit bs s = some (.again s') → s.pos < s'.pos ∧ s'.pos ≤ bs.length)
      ∧ (∀ pos, 1 ≤ pos → pos ≤ bs.length → ∃ t, tagTurn bs pos = some t)
      ∧ (∀ pos pos', tagTurn bs pos = some (.again pos') → pos < pos' ∧ pos' ≤ bs.length)
      ∧ (∀ ss, List.IsChain (scanLoop limit bs).Follows (⟨0, 0⟩ :: ss) → ss.length ≤ bs.length)
      ∧ ∀ pos ps, pos ≤ bs.length → List.IsChain (tagLoop bs).Follows (pos :: ps) →
        pos + ps.length ≤ bs.length := by
  have hturn : ∀ s : Scan, s.pos ≤ bs.length → ∃ t, turn limit bs s = some t := by
    intro s hs
    obtain ⟨t, ht, -⟩ := turn_keeps limit hs
    exact ⟨t, ht⟩
  have htag : ∀ pos, 1 ≤ pos → pos ≤ bs.length → ∃ t, tagTurn bs pos = some t := by
    intro pos h0 hpos
    obtain ⟨t, ht, -⟩ := tagTurn_keeps h0 hpos
    exact ⟨t, ht⟩
  refine ⟨scanLoop_run limit (Nat.zero_le _), fun _ => exists_slice?_iff,
    fun _ => exists_byteBefore?_iff, hturn, fun _ _ => turn_advances, htag,
    fun _ _ => tagTurn_advances, fun ss h => ?_, fun pos ps => (tagLoop bs).length_le⟩
  have hlen := (scanLoop limit bs).length_le (Nat.zero_le _) h
  exact Nat.le_trans (Nat.le_add_left _ _) hlen

/-- A start tag whose last byte is a quote that opens a value: the loops step to the end, and find
nothing there. At the very start there would be no byte to read back. -/
theorem walk_in_range_quote_last :
    (scanLoop 1 [60, 97, 32, 107, 61, 39]).run ⟨0, 0⟩ = some false
      ∧ (∃ t, turn 1 [60, 97, 32, 107, 61, 39] ⟨6, 1⟩ = some t)
      ∧ (turn 1 [60, 97, 32, 107, 61, 39] ⟨0, 0⟩ = some (.again ⟨6, 1⟩) ∧ 0 < 6 ∧ 6 ≤ 6)
      ∧ (∃ t, tagTurn [60, 97, 32, 107, 61, 39] 6 = some t)
      ∧ (tagTurn [60, 97, 32, 107, 61, 39] 1 = some (.again 6) ∧ 1 < 6 ∧ 6 ≤ 6)
      ∧ tagTurn [62] 0 = none := by
  have hanswer : exceeds 1 0 [60, 97, 32, 107, 61, 39] = false := by decide +kernel
  have hturn : turn 1 [60, 97, 32, 107, 61, 39] ⟨0, 0⟩ = some (.again ⟨6, 1⟩) := by decide +kernel
  have htag : tagTurn [60, 97, 32, 107, 61, 39] 1 = some (.again 6) := rfl
  obtain ⟨hrun, -, -, hsome, hadvances, htagSome, htagAdvances, -⟩ :=
    walk_in_range 1 [60, 97, 32, 107, 61, 39]
  exact ⟨hrun.trans (congrArg some hanswer), hsome _ (by decide), ⟨hturn, hadvances _ _ hturn⟩,
    htagSome 6 (by decide) (by decide), ⟨htag, htagAdvances _ _ htag⟩, rfl⟩

end TypedDoc.Markup.Depth

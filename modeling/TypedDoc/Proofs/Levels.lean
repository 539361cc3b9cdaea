import Mathlib.Data.List.TakeWhile
import TypedDoc.Markup.Read
import TypedDoc.Proofs.Nesting
import TypedDoc.Proofs.Outcome
import TypedDoc.Proofs.Utf8

/-!
# Levels of elements in a text

Reading a text as markup and measuring its depth go over the same text in two ways, by characters
and by bytes. They find the same pieces with the same ends (`mark_utf8`), so the number of open
elements and the deepest level so far are the same in both after each lexeme (`levels_step`). For
a text with a root element, the walk over the bytes finds a level past a limit exactly if the root
is deeper than the limit (`exceeds_of_read`).
-/

namespace TypedDoc.Markup

open Text (byte utf8 utf8_cons_of_lt utf8_cons_cases ne_byte_of_le byte_eq_iff byte_mem_utf8_iff
  prefix_utf8_iff utf8_append)

/-! ## The ends of pieces -/

namespace Depth

theorem skipPast_of_le {ending bs : List UInt8} {d : Char} (hd : d.toNat < 128)
    (he : ending.head? = some (byte d)) (hbs : ∀ b ∈ bs, 128 ≤ b.toNat) (rest : List UInt8) :
    skipPast ending (bs ++ rest) = skipPast ending rest := by
  induction bs with
  | nil => rfl
  | cons b bs ih =>
    rw [List.forall_mem_cons] at hbs
    obtain ⟨e, es, rfl⟩ := List.exists_cons_of_ne_nil (l := ending) (by rintro rfl; cases he)
    obtain rfl := Option.some.inj he
    have hp : ¬ (byte d :: es).isPrefixOf (b :: (bs ++ rest)) = true := by
      rw [List.isPrefixOf_iff_prefix, List.cons_prefix_cons]
      exact fun h => ne_byte_of_le hd hbs.1 h.1.symm
    rw [List.cons_append, skipPast, if_neg hp]
    exact ih hbs.2

/-- An ending of ASCII characters is found in the bytes where it is found in the text. -/
theorem skipPast_utf8 {ending body cs taken rest : List Char} (he : ending ≠ [])
    (ha : ∀ d ∈ ending, d.toNat < 128) (h : Lexeme.takePast ending body cs = .ok (taken, rest)) :
    skipPast (utf8 ending) (utf8 cs) = utf8 rest := by
  induction cs generalizing body with
  | nil => cases h
  | cons c cs ih =>
    simp only [Lexeme.takePast] at h
    split_ifs at h with hp
    · obtain ⟨t, ht⟩ := List.isPrefixOf_iff_prefix.1 hp
      have hrest : rest = t := by
        obtain ⟨e, es, rfl⟩ := List.exists_cons_of_ne_nil he
        obtain ⟨-, rfl⟩ := List.cons_eq_cons.1 ht
        obtain ⟨-, rfl⟩ := Prod.mk.inj (Except.ok.inj h)
        simp
      have hne : utf8 ending ≠ [] := by
        obtain ⟨e, es, rfl⟩ := List.exists_cons_of_ne_nil he
        rw [utf8_cons_of_lt (ha e List.mem_cons_self)]
        exact List.cons_ne_nil _ _
      rw [← ht, utf8_append, hrest, skipPast_ending hne]
    · rw [← ih h]
      have hnp : ¬ (utf8 ending).isPrefixOf (utf8 (c :: cs)) = true := by
        rw [List.isPrefixOf_iff_prefix, prefix_utf8_iff ha, ← List.isPrefixOf_iff_prefix]
        exact hp
      rcases utf8_cons_cases c cs with ⟨-, hc⟩ | ⟨-, b, bs, hc, hb⟩ <;> rw [hc] at hnp ⊢
      · rw [skipPast, if_neg hnp]
      · obtain ⟨e, es, rfl⟩ := List.exists_cons_of_ne_nil he
        have hlt := ha e List.mem_cons_self
        rw [← List.cons_append]
        exact skipPast_of_le hlt (by rw [utf8_cons_of_lt hlt]; rfl) hb _

/-- Wherever an ending is found first, what is left before its last place has no other bytes than
stood there. -/
theorem exists_skipPast {ending : List UInt8} (he : ending ≠ []) (bs rest : List UInt8) :
    ∃ s, skipPast ending (bs ++ ending ++ rest) = s ++ rest ∧ s ⊆ bs ++ ending := by
  induction bs with
  | nil => exact ⟨[], skipPast_ending he rest, List.nil_subset _⟩
  | cons b bs ih =>
    rw [List.cons_append, List.cons_append, skipPast]
    split_ifs
    · refine ⟨(bs ++ ending).drop (ending.length - 1), List.drop_append_of_le_length ?_, ?_⟩
      · rw [List.length_append]
        omega
      · exact List.Subset.trans (List.drop_subset _ _) (List.subset_cons_self b _)
    · obtain ⟨s, hs, hsub⟩ := ih
      exact ⟨s, hs, List.Subset.trans hsub (List.subset_cons_self b _)⟩

theorem passed_of_le {b : UInt8} (hb : 128 ≤ b.toNat) {q : Option UInt8}
    (hq : ∀ x, q = some x → x.toNat < 128) : Passed b q := by
  cases q with
  | none =>
    exact ⟨ne_byte_of_le (c := '>') (by decide) hb, ne_byte_of_le (c := '"') (by decide) hb,
      ne_byte_of_le (c := '\'') (by decide) hb⟩
  | some x =>
    rintro rfl
    exact absurd hb (Nat.not_le.2 (hq b rfl))

/-- The quote that is open after a character of a tag. -/
def quoteAfter (quote : Option Char) (c : Char) : Option Char :=
  match quote with
  | some q => if c == q then none else some q
  | none => if c == '"' || c == '\'' then some c else none

theorem takeTag_cons (quote : Option Char) (body : List Char) (c : Char) (cs : List Char) :
    Lexeme.takeTag quote body (c :: cs) =
      if quote = none ∧ c = '>' then .ok (body.reverse, cs)
      else Lexeme.takeTag (quoteAfter quote c) (c :: body) cs := by
  rcases quote with _ | q <;> simp [Lexeme.takeTag, quoteAfter]

theorem tagEnd_cons {quote : Option Char} (hq : ∀ q, quote = some q → q.toNat < 128) {c : Char}
    (hc : c.toNat < 128) (before : UInt8) (bs : List UInt8) :
    tagEnd (quote.map byte) before (byte c :: bs) =
      if quote = none ∧ c = '>' then (before == 47, bs)
      else tagEnd ((quoteAfter quote c).map byte) (byte c) bs := by
  rcases quote with _ | q
  · have h62 : byte c = 62 ↔ c = '>' := byte_eq_iff (d := '>') hc (by decide)
    have h34 : byte c = 34 ↔ c = '"' := byte_eq_iff (d := '"') hc (by decide)
    have h39 : byte c = 39 ↔ c = '\'' := byte_eq_iff (d := '\'') hc (by decide)
    simp only [Option.map_none, tagEnd, beq_iff_eq, Bool.or_eq_true, h62, h34, h39, true_and,
      quoteAfter]
    split_ifs <;> rfl
  · have hcq : byte c = byte q ↔ c = q := byte_eq_iff hc (hq q rfl)
    simp only [Option.map_some, tagEnd, beq_iff_eq, hcq, quoteAfter, reduceCtorEq, false_and,
      ↓reduceIte]
    split_ifs <;> rfl

theorem quoteAfter_lt {quote : Option Char} (hq : ∀ q, quote = some q → q.toNat < 128) {c : Char}
    (hc : c.toNat < 128) : ∀ q, quoteAfter quote c = some q → q.toNat < 128 := by
  intro q' hq'
  unfold quoteAfter at hq'
  rcases quote with _ | q <;> simp only [] at hq' <;> split_ifs at hq' <;>
    obtain rfl := Option.some.inj hq'
  · exact hc
  · exact hq _ rfl

theorem quoteAfter_of_le {quote : Option Char} (hq : ∀ q, quote = some q → q.toNat < 128) {c : Char}
    (hc : 128 ≤ c.toNat) : quoteAfter quote c = quote := by
  have hne : ∀ d : Char, d.toNat < 128 → c ≠ d := by
    rintro d hd rfl
    omega
  rcases quote with _ | q
  · simp [quoteAfter, hne '"' (by decide), hne '\'' (by decide)]
  · simp [quoteAfter, hne q (hq q rfl)]

/-- The end of a tag is found in the bytes where it is found in the text, and the byte before it
is a slash if the character is. -/
theorem tagEnd_utf8 {quote : Option Char} {body cs taken rest : List Char} {before : UInt8}
    (hq : ∀ q, quote = some q → q.toNat < 128) (hb : before = 47 ↔ body.head? = some '/')
    (h : Lexeme.takeTag quote body cs = .ok (taken, rest)) :
    tagEnd (quote.map byte) before (utf8 cs) = (taken.getLast? == some '/', utf8 rest) := by
  induction cs generalizing quote body before with
  | nil => cases h
  | cons c cs ih =>
    rw [takeTag_cons] at h
    rcases utf8_cons_cases c cs with ⟨hc, he⟩ | ⟨hc, b, bs, he, hbs⟩ <;> rw [he]
    · rw [tagEnd_cons hq hc]
      split_ifs at h ⊢
      · obtain ⟨rfl, rfl⟩ := Prod.mk.inj (Except.ok.inj h)
        rw [List.getLast?_reverse, beq_eq_beq.2 hb]
      · refine ih (quoteAfter_lt hq hc) ?_ h
        rw [show (47 : UInt8) = byte '/' from rfl, byte_eq_iff hc (by decide)]
        simp
    · have hgt : ¬ (quote = none ∧ c = '>') := by
        rintro ⟨-, rfl⟩
        exact absurd hc (by decide)
      rw [if_neg hgt, quoteAfter_of_le hq hc] at h
      have hq' : ∀ x, quote.map byte = some x → x.toNat < 128 := by
        intro x hx
        obtain ⟨q, hq', rfl⟩ := Option.map_eq_some_iff.1 hx
        rw [Text.toNat_byte (hq q hq')]
        exact hq q hq'
      rw [← List.cons_append, tagEnd_passed fun b hb => passed_of_le (hbs b hb) hq']
      refine ih hq (iff_of_false (fun hl => ?_) fun hl => ?_) h
      · have hmem : (b :: bs).getLastD before ∈ b :: bs := by
          rw [List.getLastD_eq_getLast?, List.getLast?_eq_some_getLast (List.cons_ne_nil b bs)]
          exact List.getLast_mem _
        rw [hl] at hmem
        exact absurd (hbs _ hmem) (by decide)
      · obtain rfl : c = '/' := Option.some.inj hl
        exact absurd hc (by decide)

open Lexeme in
/-- What a less-than sign begins is the same in the bytes as in the text, and ends there too. -/
def kind : Lexeme → Mark
  | .text _ | .comment _ | .verbatim _ | .instruction _ => .aside
  | .endTag _ => .endTag
  | .startTag body => .startTag (body.getLast? == some '/')

theorem mark_utf8 {cs rest : List Char} {l : Lexeme} (h : Lexeme.markup cs = .ok (l, rest)) :
    mark (utf8 cs) = (kind l, utf8 rest) := by
  unfold Lexeme.markup at h
  split at h
  · obtain ⟨body, hb, rfl⟩ := Lexeme.of_make h
    exact congrArg (Mark.aside, ·) (skipPast_utf8 (by decide) (by simp) hb)
  · obtain ⟨body, hb, rfl⟩ := Lexeme.of_make h
    exact congrArg (Mark.aside, ·) (skipPast_utf8 (by decide) (by simp) hb)
  · cases h
  · obtain ⟨body, hb, rfl⟩ := Lexeme.of_make h
    exact congrArg (Mark.aside, ·) (skipPast_utf8 (by decide) (by simp) hb)
  · obtain ⟨body, hb, rfl⟩ := Lexeme.of_make h
    exact congrArg (Mark.endTag, ·) (skipPast_utf8 (by decide) (by simp) hb)
  · rename_i hbang hquestion hslash
    obtain ⟨body, hb, rfl⟩ := Lexeme.of_make h
    have hopens : Opens (utf8 cs) := by
      intro b hhead
      rcases cs with _ | ⟨c, cs⟩
      · cases hhead
      · rcases utf8_cons_cases c cs with ⟨hc, he⟩ | ⟨-, b', bs, he, hbs⟩ <;> rw [he] at hhead <;>
          obtain rfl := Option.some.inj hhead
        · have h33 : byte c = 33 ↔ c = '!' := byte_eq_iff (d := '!') hc (by decide)
          have h63 : byte c = 63 ↔ c = '?' := byte_eq_iff (d := '?') hc (by decide)
          have h47 : byte c = 47 ↔ c = '/' := byte_eq_iff (d := '/') hc (by decide)
          refine ⟨fun hb => ?_, fun hb => ?_, fun hb => ?_⟩
          · exact hbang cs (by rw [h33.1 hb])
          · exact hquestion cs (by rw [h63.1 hb])
          · exact hslash cs (by rw [h47.1 hb])
        · have hle := hbs b' List.mem_cons_self
          exact ⟨ne_byte_of_le (c := '!') (by decide) hle,
            ne_byte_of_le (c := '?') (by decide) hle, ne_byte_of_le (c := '/') (by decide) hle⟩
    have hend := tagEnd_utf8 (by rintro _ ⟨⟩) (show (60 : UInt8) = 47 ↔ _ by decide) hb
    rw [mark_of_opens hopens]
    exact congrArg (fun r => (Mark.startTag r.1, r.2)) hend

theorem exceeds_utf8_text (limit n : Nat) {cs : List Char} (h : '<' ∉ cs) (rest : List Char) :
    exceeds limit n (utf8 (cs ++ rest)) = exceeds limit n (utf8 rest) := by
  rw [utf8_append]
  exact exceeds_text limit n (mt (byte_mem_utf8_iff (c := '<') (by decide)).1 h) _

/-- The number of open elements after a piece. -/
def Mark.opened (n : Nat) : Mark → Nat
  | .aside => n
  | .endTag => n - 1
  | .startTag isEmpty => if isEmpty then n else n + 1

/-- The deepest level after a piece with `n` elements open before it. -/
def Mark.deepest (n deepest : Nat) : Mark → Nat
  | .aside | .endTag => deepest
  | .startTag _ => max deepest (n + 1)

/-- At a less-than sign the walk goes on after what begins there, with its level among those that
count. -/
theorem exceeds_mark_iff {bs rest : List UInt8} {m : Mark} (h : mark bs = (m, rest))
    (limit n deepest : Nat) :
    limit < deepest ∨ exceeds limit n (60 :: bs) = true ↔
      limit < m.deepest n deepest ∨ exceeds limit (m.opened n) rest = true := by
  rw [exceeds_of_mark h]
  cases m with
  | aside => rfl
  | endTag => rfl
  | startTag isEmpty =>
    have hmax : limit < max deepest (n + 1) ↔ limit < deepest ∨ limit < n + 1 := by omega
    rw [Bool.or_eq_true, decide_eq_true_iff, ← or_assoc, ← hmax]
    rfl

/-- The walk goes on after the next lexeme, with its level among those that count. -/
theorem exceeds_utf8_next {limit n deepest : Nat} {c : Char} {cs rest : List Char} {l : Lexeme}
    (h : Lexeme.next c cs = .ok (l, rest)) :
    limit < deepest ∨ exceeds limit n (utf8 (c :: cs)) = true ↔
      limit < (kind l).deepest n deepest
        ∨ exceeds limit ((kind l).opened n) (utf8 rest) = true := by
  unfold Lexeme.next at h
  split_ifs at h with hc
  · rw [hc, utf8_cons_of_lt (by decide), show byte '<' = 60 from rfl]
    exact exceeds_mark_iff (mark_utf8 h) limit n deepest
  · obtain ⟨rfl, rfl⟩ := Prod.mk.inj (Except.ok.inj h)
    have hno : '<' ∉ c :: cs.takeWhile (· != '<') := by
      rw [List.mem_cons, not_or]
      exact ⟨Ne.symm hc, fun hm => by simpa using List.mem_takeWhile_imp hm⟩
    have happ : c :: cs = (c :: cs.takeWhile (· != '<')) ++ cs.dropWhile (· != '<') := by
      rw [List.cons_append, List.takeWhile_append_dropWhile]
    rw [happ, exceeds_utf8_text limit n hno]
    rfl

end Depth

/-! ## The tree so far -/

mutual

/-- The number of elements on the longest way down, the outermost one counted. -/
def Branch.depth (b : Branch) : Nat :=
  match b with
  | .mk _ _ content => Node.depthAll content + 1
termination_by structural b

def Node.depth (n : Node) : Nat :=
  match n with
  | .element b => b.depth
  | .text _ => 0
  | .comment => 0
  | .instruction => 0
termination_by structural n

def Node.depthAll (ns : List Node) : Nat :=
  match ns with
  | [] => 0
  | n :: ns => max n.depth (Node.depthAll ns)
termination_by structural ns

end

theorem Node.depthAll_append (ms ns : List Node) :
    Node.depthAll (ms ++ ns) = max (Node.depthAll ms) (Node.depthAll ns) := by
  induction ms with
  | nil => simp [Node.depthAll]
  | cons m ms ih => rw [List.cons_append, Node.depthAll, ih, Node.depthAll, Nat.max_assoc]

theorem Node.depthAll_reverse (ns : List Node) : Node.depthAll ns.reverse = Node.depthAll ns := by
  induction ns with
  | nil => rfl
  | cons n ns ih =>
    rw [List.reverse_cons, Node.depthAll_append, ih]
    simp only [Node.depthAll]
    omega

theorem Frame.depth_close (f : Frame) : f.close.depth = Node.depthAll f.content + 1 := by
  rw [Frame.close, Branch.depth, Node.depthAll_reverse]

namespace Progress

/-- The number of open elements. -/
def opened : Progress → Nat
  | before => 0
  | within _ outer => outer.length + 1
  | after _ => 0

/-- The deepest level that open elements and what they hold so far come to. -/
def framesDepth : List Frame → Nat
  | [] => 0
  | f :: outer => max (framesDepth outer) (outer.length + 1 + Node.depthAll f.content)

def deepest : Progress → Nat
  | before => 0
  | within top outer => framesDepth (top :: outer)
  | after root => root.depth

theorem opened_closeTop (top : Frame) (outer : List Frame) :
    (closeTop top outer).opened = outer.length := by
  cases outer <;> rfl

theorem deepest_closeTop (top : Frame) (outer : List Frame) :
    (closeTop top outer).deepest = framesDepth (top :: outer) := by
  rcases outer with _ | ⟨f, outer⟩
  · simp only [closeTop, deepest, Frame.depth_close, framesDepth, List.length_nil]
    omega
  · simp only [closeTop, deepest, framesDepth, Frame.push, Node.depthAll, Node.depth,
      Frame.depth_close, List.length_cons]
    omega

/-- What is read by itself adds nothing to the depth. -/
theorem deepest_of_depthAll_eq {top : Frame} {content : List Node} (outer : List Frame)
    (h : Node.depthAll content = Node.depthAll top.content) :
    (within { top with content } outer).deepest = (within top outer).deepest := by
  simp only [deepest, framesDepth, h]

theorem depthAll_addText (cs : List Char) (content : List Node) :
    Node.depthAll (addText cs content) = Node.depthAll content := by
  unfold addText
  split <;> simp [Node.depthAll, Node.depth]

theorem levels_note {p : Progress} {n : Node} (hn : n.depth = 0) :
    (p.note n).opened = p.opened ∧ (p.note n).deepest = p.deepest := by
  cases p with
  | within top outer =>
    exact ⟨rfl, deepest_of_depthAll_eq outer (by simp [Node.depthAll, hn])⟩
  | _ => exact ⟨rfl, rfl⟩

theorem content_frame {outer : Scope} {tag : Tag} {f : Frame} (h : frame outer tag = .ok f) :
    f.content = [] := by
  simp only [frame, bind_eq_ok_iff] at h
  obtain ⟨⟨own, attributes⟩, -, h⟩ := h
  split_ifs at h
  · cases h
  · obtain ⟨as, -, hf⟩ := bind_eq_ok_iff.1 h
    cases hf
    rfl

theorem levels_start {p p' : Progress} {tag : Tag} (h : p.start tag = .ok p') :
    p'.opened = (Depth.Mark.startTag tag.isEmpty).opened p.opened
      ∧ p'.deepest = max p.deepest (p.opened + 1) := by
  have henter : ∀ (f : Frame) (outer : List Frame), f.content = [] →
      let q := if tag.isEmpty then closeTop f outer else within f outer
      q.opened = (if tag.isEmpty then outer.length else outer.length + 1)
        ∧ q.deepest = max (framesDepth outer) (outer.length + 1) := by
    intro f outer hf
    have hd : framesDepth (f :: outer) = max (framesDepth outer) (outer.length + 1) := by
      rw [framesDepth, hf]
      rfl
    simp only []
    split_ifs
    · exact ⟨opened_closeTop f outer, (deepest_closeTop f outer).trans hd⟩
    · exact ⟨rfl, hd⟩
  cases p with
  | before =>
    obtain ⟨f, hf, rfl⟩ := map_eq_ok_iff.1 h
    exact henter f [] (content_frame hf)
  | within top outer =>
    obtain ⟨f, hf, rfl⟩ := map_eq_ok_iff.1 h
    exact henter f (top :: outer) (content_frame hf)
  | after root => cases h

theorem levels_finish {p p' : Progress} {body : List Char} (h : p.finish body = .ok p') :
    p'.opened = p.opened - 1 ∧ p'.deepest = p.deepest := by
  simp only [finish, bind_eq_ok_iff] at h
  obtain ⟨⟨name, rest⟩, -, h⟩ := h
  split_ifs at h
  · cases h
  · cases p with
    | within top outer =>
      simp only [] at h
      split_ifs at h
      · obtain rfl := Except.ok.inj h
        exact ⟨opened_closeTop top outer, deepest_closeTop top outer⟩
    | _ => cases h

theorem isEmpty_of_read {body : List Char} {tag : Tag} (h : Tag.read body = .ok tag) :
    tag.isEmpty = (body.getLast? == some '/') := by
  simp only [Tag.read, bind_eq_ok_iff] at h
  obtain ⟨⟨name, rest⟩, -, as, -, ht⟩ := h
  cases ht
  rfl

/-- A lexeme opens and closes elements, and reaches a level, as its piece does. -/
theorem levels_step {p p' : Progress} {l : Lexeme} (h : p.step l = .ok p') :
    p'.opened = (Depth.kind l).opened p.opened
      ∧ p'.deepest = (Depth.kind l).deepest p.opened p.deepest := by
  cases l with
  | text cs =>
    cases p with
    | within top outer =>
      simp only [step] at h
      split_ifs at h
      · cases h
      · obtain ⟨t, -, hp⟩ := bind_eq_ok_iff.1 h
        obtain rfl := Except.ok.inj hp
        exact ⟨rfl, deepest_of_depthAll_eq outer (depthAll_addText _ _)⟩
    | _ =>
      simp only [step] at h
      split_ifs at h
      obtain rfl := Except.ok.inj h
      exact ⟨rfl, rfl⟩
  | verbatim body =>
    cases p with
    | within top outer =>
      obtain rfl := Except.ok.inj h
      exact ⟨rfl, deepest_of_depthAll_eq outer (depthAll_addText _ _)⟩
    | _ => cases h
  | comment body =>
    simp only [step] at h
    split_ifs at h
    obtain rfl := Except.ok.inj h
    exact levels_note rfl
  | instruction body =>
    simp only [step] at h
    split_ifs at h
    obtain rfl := Except.ok.inj h
    exact levels_note rfl
  | endTag body => exact levels_finish h
  | startTag body =>
    simp only [step, bind_eq_ok_iff] at h
    obtain ⟨tag, ht, h⟩ := h
    rw [Depth.kind, ← isEmpty_of_read ht]
    exact levels_start h

end Progress

open Depth (exceeds) in
/-- The lexemes of a text, taken one after another, reach the levels that the walk over the bytes
finds: the levels reached before and those to come are past a limit if those at the end are. -/
theorem exceeds_of_split (limit : Nat) {done ls : List Lexeme} {cs : List Char}
    (h : Lexeme.split done cs = .ok ls) : ∃ new, ls = done.reverse ++ new ∧
      ∀ p p' : Progress, new.foldlM Progress.step p = .ok p' →
        (limit < p.deepest ∨ exceeds limit p.opened (utf8 cs) = true ↔ limit < p'.deepest) := by
  fun_induction Lexeme.split done cs with
  | case1 done =>
    refine ⟨[], ?_, fun p p' hp => ?_⟩
    · rw [List.append_nil]
      exact (Except.ok.inj h).symm
    · obtain rfl := Except.ok.inj hp
      rw [Text.utf8_nil, Depth.exceeds_nil]
      simp
  | case2 => cases h
  | case3 done c cs l rest hn ih =>
    obtain ⟨new, rfl, hnew⟩ := ih h
    refine ⟨l :: new, by simp, fun p p' hp => ?_⟩
    rw [List.foldlM_cons, bind_eq_ok_iff] at hp
    obtain ⟨q, hq, hp⟩ := hp
    obtain ⟨ho, hd⟩ := Progress.levels_step hq
    rw [Depth.exceeds_utf8_next hn, ← ho, ← hd, hnew q p' hp]

/-! ## Whole texts -/

/-- What is left of a text after a stretch of it that begins no piece of markup. -/
def Passes (cs rest : List Char) : Prop := ∃ before, cs = before ++ rest ∧ '<' ∉ before

theorem Passes.trans {cs ds es : List Char} (h : Passes cs ds) (h' : Passes ds es) :
    Passes cs es := by
  obtain ⟨a, rfl, ha⟩ := h
  obtain ⟨b, rfl, hb⟩ := h'
  exact ⟨a ++ b, (List.append_assoc a b es).symm, by simp [ha, hb]⟩

theorem passes_cons {c : Char} (h : c ≠ '<') (cs : List Char) : Passes (c :: cs) cs :=
  ⟨[c], rfl, by simpa using h.symm⟩

theorem passes_dropWhile {p : Char → Bool} (h : p '<' = false) (cs : List Char) :
    Passes cs (cs.dropWhile p) := by
  refine ⟨cs.takeWhile p, List.takeWhile_append_dropWhile.symm, fun hm => ?_⟩
  rw [List.mem_takeWhile_imp hm] at h
  cases h

theorem passes_readValue {cs value rest : List Char}
    (h : RawAttribute.readValue cs = .ok (value, rest)) : Passes cs rest := by
  unfold RawAttribute.readValue at h
  split at h
  · cases h
  · rename_i q cs
    simp only [] at h
    split at h
    · cases h
    · rename_i c rest' hd
      split_ifs at h with hq
      obtain ⟨-, rfl⟩ := Prod.mk.inj (Except.ok.inj h)
      simp only [Bool.and_eq_true, Bool.or_eq_true, beq_iff_eq] at hq
      obtain ⟨hquote, rfl⟩ := hq
      have hne : c ≠ '<' := by
        rcases hquote with rfl | rfl <;> decide
      have hpass := passes_dropWhile (p := fun x => x != c && x != '<') (by simp) cs
      rw [hd] at hpass
      exact (passes_cons hne cs).trans (hpass.trans (passes_cons hne rest'))

theorem passes_read {cs rest : List Char} {a : RawAttribute}
    (h : RawAttribute.read cs = .ok (a, rest)) : Passes cs rest := by
  unfold RawAttribute.read at h
  split at h
  · cases h
  · rename_i name cs' hn
    have hname : Passes cs cs' := by
      unfold QName.read at hn
      split at hn
      · obtain ⟨-, rfl⟩ := Prod.mk.inj (Except.ok.inj hn)
        exact passes_dropWhile (by decide) cs
      · cases hn
    split at h
    · rename_i cs'' hd
      obtain ⟨⟨value, rest'⟩, hv, ha⟩ := map_eq_ok_iff.1 h
      obtain ⟨-, rfl⟩ := Prod.mk.inj ha
      have hspace := passes_dropWhile (p := isSpace) (by decide) cs'
      rw [hd] at hspace
      exact hname.trans (hspace.trans ((passes_cons (by decide) cs'').trans
        ((passes_dropWhile (by decide) cs'').trans (passes_readValue hv))))
    · cases h

namespace Declaration

theorem passes_part {name : String} {cs rest : List Char} (h : part name cs = .ok rest) :
    Passes cs rest := by
  unfold part at h
  split at h
  · rename_i hr
    split_ifs at h
    obtain rfl := Except.ok.inj h
    exact (passes_read hr).trans (passes_dropWhile (by decide) _)
  · cases h

theorem passes_optional {name : String} {cs rest : List Char} (h : optional name cs = .ok rest) :
    Passes cs rest := by
  unfold optional at h
  split_ifs at h
  · exact passes_part h
  · obtain rfl := Except.ok.inj h
    exact ⟨[], rfl, by simp⟩

theorem after_eq_some_iff {start : String} {cs rest : List Char} :
    after start cs = some rest ↔ cs = start.toList ++ rest := by
  unfold after
  split_ifs with h
  · obtain ⟨t, rfl⟩ := List.isPrefixOf_iff_prefix.1 h
    have hdrop : (start.toList ++ t).drop start.length = t := by
      rw [← String.length_toList, List.drop_left]
    rw [hdrop, Option.some.injEq, List.append_cancel_left_eq]
  · refine iff_of_false nofun ?_
    rintro rfl
    exact h (List.isPrefixOf_iff_prefix.2 (List.prefix_append _ _))

/-- A declaration is an instruction to the walk, which may end early between the quotes of a
value; what is left of it then begins no piece of markup. -/
theorem exceeds_skip {limit : Nat} {cs rest : List Char} (h : skip cs = .ok rest) :
    Depth.exceeds limit 0 (utf8 cs) = Depth.exceeds limit 0 (utf8 rest) := by
  unfold skip at h
  split at h
  · rw [Except.ok.inj h]
  · rename_i cs' hstart
    simp only [bind_eq_ok_iff] at h
    obtain ⟨ds, hversion, es, hencoding, fs, hstandalone, h⟩ := h
    split at h
    · rename_i rest' hend
      obtain rfl := Except.ok.inj h
      rw [after_eq_some_iff] at hstart hend
      obtain ⟨before, hbefore, hno⟩ : Passes cs' fs :=
        (passes_dropWhile (by decide) cs').trans ((passes_part hversion).trans
          ((passes_optional hencoding).trans (passes_optional hstandalone)))
      have hcs : cs = '<' :: '?' :: (['x', 'm', 'l', ' '] ++ before ++ ['?', '>'] ++ rest') := by
        rw [hstart, hbefore, hend]
        simp
      have hmark : Depth.mark (utf8 ('?' :: (['x', 'm', 'l', ' '] ++ before ++ ['?', '>']
          ++ rest'))) = (.aside, Depth.skipPast (utf8 ['?', '>'])
            (utf8 (['x', 'm', 'l', ' '] ++ before) ++ utf8 ['?', '>'] ++ utf8 rest')) := by
        rw [← utf8_append, ← utf8_append]
        rfl
      obtain ⟨s, hs, hsub⟩ := Depth.exists_skipPast (show utf8 ['?', '>'] ≠ [] by decide)
        (utf8 (['x', 'm', 'l', ' '] ++ before)) (utf8 rest')
      have hno' : (60 : UInt8) ∉ s := by
        intro hm
        have hm' := hsub hm
        rw [← utf8_append, show (60 : UInt8) = byte '<' from rfl,
          byte_mem_utf8_iff (by decide)] at hm'
        simp [hno] at hm'
      rw [hs] at hmark
      rw [hcs, utf8_cons_of_lt (by decide), show byte '<' = 60 from rfl,
        Depth.exceeds_of_mark hmark]
      exact Depth.exceeds_text limit 0 hno' _
    · cases h

end Declaration

theorem exceeds_unmarked (limit : Nat) (text : String) :
    Depth.exceeds limit 0 (utf8 text.toList) = Depth.exceeds limit 0 (utf8 (unmarked text)) := by
  unfold unmarked
  split
  · rename_i cs h
    rw [h]
    exact Depth.exceeds_utf8_text limit 0 (show '<' ∉ ['\ufeff'] by decide) cs
  · rfl

/-- In a text that has a root element, some level is past a limit exactly if the root is deeper
than the limit. -/
theorem exceeds_of_read {text : String} {root : Branch} (h : read text = .ok root) (limit : Nat) :
    Depth.exceeds limit 0 (utf8 text.toList) = true ↔ limit < root.depth := by
  simp only [read] at h
  split_ifs at h
  · cases h
  · simp only [bind_eq_ok_iff] at h
    obtain ⟨cs, hskip, ls, hsplit, hroot⟩ := h
    simp only [Branch.ofLexemes, bind_eq_ok_iff] at hroot
    obtain ⟨p, hp, hroot⟩ := hroot
    obtain ⟨new, rfl, hlevels⟩ := exceeds_of_split limit hsplit
    have hrun := hlevels .before p hp
    have hafter : p = .after root := by
      cases p <;> cases hroot
      rfl
    rw [exceeds_unmarked, Declaration.exceeds_skip hskip]
    simpa [hafter, Progress.deepest, Progress.opened] using hrun

end TypedDoc.Markup

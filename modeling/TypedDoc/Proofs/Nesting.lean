import Mathlib.Data.List.Basic
import TypedDoc.Markup.Depth

/-!
# Nesting in written markup

Markup is written as a sequence of tokens: text, pieces that hold no elements, and tags. Each token
carries what makes it end where it should (`Aside`, `StartTag`, `EmptyTag`, `EndTag`). The level of
a tag that begins an element is one more than the number of elements that are open before it.

The walk over the bytes goes from one token to the next (`exceeds_append`), so it sees just these
levels: it stops at the first of them that is past the limit, whatever the bytes after it are, and
goes on to the end of the tokens otherwise (`exceeds_iff_levels`). For the tokens of elements the
deepest level is the depth of the tree (`exists_level_tokens`).
-/

namespace TypedDoc.Markup.Depth

/-! ## Tokens -/

/-- What stands in a tag: bytes outside of quotes, and values with their quotes. -/
inductive Piece where
  | plain (b : UInt8) (hb : b ≠ 62 ∧ b ≠ 34 ∧ b ≠ 39)
  | quoted (q : UInt8) (value : List UInt8) (hq : q = 34 ∨ q = 39) (hv : q ∉ value)

def Piece.written : Piece → List UInt8
  | plain b _ => [b]
  | quoted q value _ _ => q :: (value ++ [q])

def body (ps : List Piece) : List UInt8 := ps.flatMap Piece.written

/-- No byte that makes a tag a comment, an instruction or an end tag comes first. -/
def Opens (bs : List UInt8) : Prop := ∀ b, bs.head? = some b → b ≠ 33 ∧ b ≠ 63 ∧ b ≠ 47

/-- Text, and pieces of markup that hold no elements. -/
inductive Aside where
  | text (bs : List UInt8) (h : 60 ∉ bs)
  | comment (bs : List UInt8) (h : ¬ [45, 45, 62] <:+: bs)
  | verbatim (bs : List UInt8) (h : ¬ [93, 93, 62] <:+: bs)
  | instruction (bs : List UInt8) (h : ¬ [63, 62] <:+: bs)

structure StartTag where
  pieces : List Piece
  opens : Opens (body pieces)
  no_slash : (body pieces).getLast? ≠ some 47

/-- The tag of an element that ends with it. -/
structure EmptyTag where
  pieces : List Piece
  opens : Opens (body pieces ++ [47])

structure EndTag where
  bytes : List UInt8
  no_end : 62 ∉ bytes

inductive Token where
  | aside (a : Aside)
  | start (t : StartTag)
  | empty (t : EmptyTag)
  | finish (t : EndTag)

def Aside.written : Aside → List UInt8
  | text bs _ => bs
  | comment bs _ => [60, 33, 45, 45] ++ bs ++ [45, 45, 62]
  | verbatim bs _ => [60, 33, 91, 67, 68, 65, 84, 65, 91] ++ bs ++ [93, 93, 62]
  | instruction bs _ => [60, 63] ++ bs ++ [63, 62]

def Token.written : Token → List UInt8
  | aside a => a.written
  | start t => [60] ++ body t.pieces ++ [62]
  | empty t => [60] ++ body t.pieces ++ [47, 62]
  | finish t => [60, 47] ++ t.bytes ++ [62]

def written (ts : List Token) : List UInt8 := ts.flatMap Token.written

/-- The number of open elements after a token; an end tag with none open ends nothing. -/
def Token.opened (n : Nat) : Token → Nat
  | start _ => n + 1
  | finish _ => n - 1
  | aside _ | empty _ => n

def Token.level? (n : Nat) : Token → Option Nat
  | start _ | empty _ => some (n + 1)
  | aside _ | finish _ => none

def opened (n : Nat) (ts : List Token) : Nat := ts.foldl Token.opened n

/-- The levels of the tags that begin elements, with `n` elements open before the first token. -/
def tagLevels (n : Nat) : List Token → List Nat
  | [] => []
  | t :: ts => (t.level? n).toList ++ tagLevels (t.opened n) ts

/-! ## Where a token ends -/

/-- An ending whose last byte is nowhere else in it does not begin in what stands before it. -/
theorem prefix_of_prefix_append {e bs rest : List UInt8} (he : 62 ∉ e) (hbs : bs ≠ [])
    (h : e ++ [62] <+: bs ++ (e ++ [62] ++ rest)) : e ++ [62] <+: bs := by
  rcases List.prefix_or_prefix_of_prefix h (List.prefix_append bs _) with h' | ⟨s, hs⟩
  · exact h'
  · rcases List.eq_nil_or_concat' s with rfl | ⟨s, b, rfl⟩
    · rw [List.append_nil] at hs
      exact hs ▸ List.prefix_rfl
    · -- the ending would lie across itself, with its last byte among the bytes before that one
      exfalso
      rw [← List.append_assoc] at hs
      obtain ⟨rfl, -⟩ := List.append_inj' hs rfl
      rw [List.append_assoc, List.append_assoc bs, List.prefix_append_right_inj] at h
      have hlen : (s ++ [62]).length ≤ (bs ++ s).length := by
        have hpos := List.length_pos_iff.2 hbs
        simp only [List.length_append, List.length_cons, List.length_nil]
        omega
      rw [List.append_assoc s, ← List.append_assoc bs] at h
      have hp := List.prefix_of_prefix_length_le h (List.prefix_append _ _) hlen
      exact he (hp.subset (by simp))

theorem skipPast_ending {ending : List UInt8} (he : ending ≠ []) (rest : List UInt8) :
    skipPast ending (ending ++ rest) = rest := by
  obtain ⟨e, es, rfl⟩ := List.exists_cons_of_ne_nil he
  have hp : (e :: es).isPrefixOf (e :: (es ++ rest)) = true := by
    rw [List.isPrefixOf_iff_prefix]
    exact ⟨rest, rfl⟩
  rw [List.cons_append, skipPast, if_pos hp]
  simp

theorem skipPast_append {e bs : List UInt8} (he : 62 ∉ e) (h : ¬ (e ++ [62]) <:+: bs)
    (rest : List UInt8) : skipPast (e ++ [62]) (bs ++ (e ++ [62]) ++ rest) = rest := by
  induction bs with
  | nil => exact skipPast_ending (by simp) rest
  | cons b bs ih =>
    have hb : ¬ (e ++ [62]).isPrefixOf (b :: (bs ++ (e ++ [62]) ++ rest)) := by
      intro hp
      rw [List.isPrefixOf_iff_prefix, List.append_assoc, ← List.cons_append] at hp
      exact h (prefix_of_prefix_append he (List.cons_ne_nil b bs) hp).isInfix
    rw [List.cons_append, List.cons_append, skipPast, if_neg hb]
    exact ih fun hi => h (hi.trans (List.suffix_cons b bs).isInfix)

/-- A byte of a tag that neither ends it nor begins or ends a value in it. -/
def Passed (b : UInt8) : Option UInt8 → Prop
  | none => b ≠ 62 ∧ b ≠ 34 ∧ b ≠ 39
  | some q => b ≠ q

/-- Such bytes only change which byte stands before. -/
theorem tagEnd_passed {quote : Option UInt8} {bs : List UInt8} (h : ∀ b ∈ bs, Passed b quote)
    (before : UInt8) (rest : List UInt8) :
    tagEnd quote before (bs ++ rest) = tagEnd quote (bs.getLastD before) rest := by
  induction bs generalizing before with
  | nil => rfl
  | cons b bs ih =>
    rw [List.forall_mem_cons] at h
    obtain ⟨hb, hbs⟩ := h
    have hstep : tagEnd quote before (b :: (bs ++ rest)) = tagEnd quote b (bs ++ rest) := by
      cases quote with
      | none =>
        obtain ⟨h62, h34, h39⟩ := hb
        simp [tagEnd, h62, h34, h39]
      | some q =>
        have hq : b ≠ q := hb
        simp [tagEnd, hq]
    rw [List.cons_append, hstep, ih hbs, List.getLastD_cons]

theorem tagEnd_value {q : UInt8} {value : List UInt8} (h : q ∉ value) (before : UInt8)
    (rest : List UInt8) : tagEnd (some q) before (value ++ q :: rest) = tagEnd none q rest := by
  have hpassed : ∀ b ∈ value, Passed b (some q) := fun b hb => ne_of_mem_of_not_mem hb h
  rw [tagEnd_passed hpassed]
  simp [tagEnd]

theorem tagEnd_quote {q : UInt8} (hq : q = 34 ∨ q = 39) (before : UInt8) (rest : List UInt8) :
    tagEnd none before (q :: rest) = tagEnd (some q) q rest := by
  rcases hq with rfl | rfl <;> rfl

theorem tagEnd_body (ps : List Piece) (before : UInt8) (rest : List UInt8) :
    tagEnd none before (body ps ++ rest) = tagEnd none ((body ps).getLastD before) rest := by
  induction ps generalizing before with
  | nil => rfl
  | cons p ps ih =>
    have hb : body (p :: ps) = p.written ++ body ps := rfl
    rw [hb, List.append_assoc]
    cases p with
    | plain b h =>
      have hpassed : ∀ x ∈ [b], Passed x none := fun x hx => List.mem_singleton.1 hx ▸ h
      rw [Piece.written, tagEnd_passed hpassed, ih]
      simp [List.getLastD_eq_getLast?, List.getLast?_cons]
    | quoted q value hq hv =>
      have hw : (Piece.quoted q value hq hv).written ++ (body ps ++ rest) =
          q :: (value ++ q :: (body ps ++ rest)) := by simp [Piece.written]
      rw [hw, tagEnd_quote hq, tagEnd_value hv, ih]
      simp [Piece.written, List.getLastD_eq_getLast?, List.getLast?_cons]

/-! ## The walk from token to token -/

theorem mark_of_opens {bs : List UInt8} (h : Opens bs) :
    mark bs = (.startTag (tagEnd none 60 bs).1, (tagEnd none 60 bs).2) := by
  unfold mark
  split
  case h_6 => rfl
  case h_3 => exact absurd rfl (h _ rfl).2.1
  case h_5 => exact absurd rfl (h _ rfl).2.2
  all_goals exact absurd rfl (h _ rfl).1

theorem opens_append {bs : List UInt8} (h : Opens bs) (rest : List UInt8) :
    Opens (bs ++ 62 :: rest) := by
  intro b hb
  cases bs with
  | nil =>
    obtain rfl : 62 = b := by simpa using hb
    decide
  | cons c bs => exact h b hb

theorem exceeds_eq (limit n : Nat) (bs : List UInt8) : exceeds limit n bs =
    match bs.dropWhile (· != 60) with
    | [] => false
    | _ :: rest =>
      match (mark rest).1 with
      | .aside => exceeds limit n (mark rest).2
      | .endTag => exceeds limit (n - 1) (mark rest).2
      | .startTag isEmpty =>
        if limit < n + 1 then true
        else exceeds limit (if isEmpty then n else n + 1) (mark rest).2 := by
  rw [exceeds]
  split
  · rename_i h
    simp only [h]
  · rename_i rest h
    cases hm : (mark rest).1 <;> simp only [h, hm]

@[simp] theorem exceeds_nil (limit n : Nat) : exceeds limit n [] = false := by
  rw [exceeds_eq]
  rfl

theorem exceeds_text (limit n : Nat) {bs : List UInt8} (h : 60 ∉ bs) (rest : List UInt8) :
    exceeds limit n (bs ++ rest) = exceeds limit n rest := by
  have hd : (bs ++ rest).dropWhile (· != 60) = rest.dropWhile (· != 60) := by
    refine List.dropWhile_append_of_pos fun b hb => ?_
    rw [bne_iff_ne]
    rintro rfl
    exact h hb
  rw [exceeds_eq, hd, ← exceeds_eq]

/-- What the walk does at a less-than sign, from what it begins and what follows that. -/
theorem exceeds_of_mark {bs rest : List UInt8} {m : Mark} (h : mark bs = (m, rest))
    (limit n : Nat) : exceeds limit n (60 :: bs) =
    match m with
    | .aside => exceeds limit n rest
    | .endTag => exceeds limit (n - 1) rest
    | .startTag isEmpty =>
      decide (limit < n + 1) || exceeds limit (if isEmpty then n else n + 1) rest := by
  have hd : (60 :: bs).dropWhile (· != 60) = 60 :: bs := rfl
  rw [exceeds_eq, hd]
  simp only [h]
  cases m with
  | aside => rfl
  | endTag => rfl
  | startTag isEmpty => by_cases hl : limit < n + 1 <;> simp [hl]

theorem mark_of_ending (opening e : List UInt8) {bs : List UInt8} {m : Mark}
    (hm : ∀ rest, mark (opening ++ rest) = (m, skipPast (e ++ [62]) rest)) (he : 62 ∉ e)
    (h : ¬ (e ++ [62]) <:+: bs) (rest : List UInt8) :
    mark (opening ++ (bs ++ (e ++ [62]) ++ rest)) = (m, rest) := by
  rw [hm, skipPast_append he h]

theorem exceeds_aside (limit n : Nat) (a : Aside) (rest : List UInt8) :
    exceeds limit n (a.written ++ rest) = exceeds limit n rest := by
  cases a with
  | text bs h => exact exceeds_text limit n h rest
  | comment bs h =>
    have hm := mark_of_ending [33, 45, 45] [45, 45] (fun _ => rfl) (by decide) h
    exact exceeds_of_mark (hm rest) limit n
  | verbatim bs h =>
    have hm := mark_of_ending [33, 91, 67, 68, 65, 84, 65, 91] [93, 93] (fun _ => rfl) (by decide) h
    exact exceeds_of_mark (hm rest) limit n
  | instruction bs h =>
    have hm := mark_of_ending [63] [63] (fun _ => rfl) (by decide) h
    exact exceeds_of_mark (hm rest) limit n

theorem exceeds_token (limit n : Nat) (t : Token) (rest : List UInt8) :
    exceeds limit n (t.written ++ rest) =
      ((t.level? n).any (limit < ·) || exceeds limit (t.opened n) rest) := by
  cases t with
  | aside a => exact exceeds_aside limit n a rest
  | start t =>
    have hw : (Token.start t).written ++ rest = 60 :: (body t.pieces ++ 62 :: rest) := by
      simp [Token.written]
    have hend : tagEnd none 60 (body t.pieces ++ 62 :: rest) = (false, rest) := by
      have hlast : ((body t.pieces).getLastD 60 == 47) = false := by
        rw [List.getLastD_eq_getLast?, beq_eq_false_iff_ne]
        cases h : (body t.pieces).getLast? with
        | none => decide
        | some b => exact fun hb => t.no_slash (h.trans (congrArg some hb))
      rw [tagEnd_body]
      exact congrArg (Prod.mk · rest) hlast
    have hm := mark_of_opens (opens_append t.opens rest)
    rw [hend] at hm
    rw [hw, exceeds_of_mark hm]
    rfl
  | empty t =>
    have hw : (Token.empty t).written ++ rest = 60 :: (body t.pieces ++ [47] ++ 62 :: rest) := by
      simp [Token.written]
    have hend : tagEnd none 60 (body t.pieces ++ [47] ++ 62 :: rest) = (true, rest) := by
      rw [List.append_assoc, tagEnd_body]
      rfl
    have hm := mark_of_opens (opens_append t.opens rest)
    rw [hend] at hm
    rw [hw, exceeds_of_mark hm]
    rfl
  | finish t =>
    have hno : ¬ ([] ++ [62]) <:+: t.bytes := fun h => t.no_end (h.subset (by simp))
    have hm := mark_of_ending [47] [] (fun _ => rfl) (by decide) hno
    exact exceeds_of_mark (hm rest) limit n

theorem exceeds_append (limit : Nat) (rest : List UInt8) : ∀ (ts : List Token) (n : Nat),
    exceeds limit n (written ts ++ rest) =
      ((tagLevels n ts).any (limit < ·) || exceeds limit (opened n ts) rest)
  | [], n => rfl
  | t :: ts, n => by
    have hw : written (t :: ts) ++ rest = t.written ++ (written ts ++ rest) := by
      simp [written]
    rw [hw, exceeds_token, exceeds_append limit rest ts]
    cases ht : t.level? n <;> simp [tagLevels, opened, ht, Bool.or_assoc]

theorem exceeds_written (limit : Nat) (ts : List Token) :
    exceeds limit 0 (written ts) = true ↔ ∃ l ∈ tagLevels 0 ts, limit < l := by
  have h := exceeds_append limit [] ts 0
  rw [List.append_nil, exceeds_nil, Bool.or_false] at h
  rw [h]
  simp

/-! ## Elements -/

/-- What an element holds, in the forms it can be written in. -/
inductive Content where
  | aside (a : Aside)
  | empty (t : EmptyTag)
  | element (s : StartTag) (inner : List Content) (e : EndTag)

mutual

def Content.tokens : Content → List Token
  | .aside a => [.aside a]
  | .empty t => [.empty t]
  | .element s inner e => .start s :: (tokensAll inner ++ [.finish e])

def tokensAll : List Content → List Token
  | [] => []
  | c :: cs => c.tokens ++ tokensAll cs

end

mutual

/-- The number of elements on the longest way down. -/
def Content.depth : Content → Nat
  | .aside _ => 0
  | .empty _ => 1
  | .element _ inner _ => depthAll inner + 1

def depthAll : List Content → Nat
  | [] => 0
  | c :: cs => max c.depth (depthAll cs)

end

theorem opened_append (n : Nat) (ts us : List Token) :
    opened n (ts ++ us) = opened (opened n ts) us :=
  List.foldl_append

theorem tagLevels_append : ∀ (ts us : List Token) (n : Nat),
    tagLevels n (ts ++ us) = tagLevels n ts ++ tagLevels (opened n ts) us
  | [], _, _ => rfl
  | t :: ts, us, n => by
    rw [List.cons_append, tagLevels, tagLevels, tagLevels_append ts us, List.append_assoc]
    rfl

mutual

/-- Elements are closed where they were opened. -/
theorem opened_tokens (n : Nat) : ∀ c : Content, opened n c.tokens = n
  | .aside _ => rfl
  | .empty _ => rfl
  | .element s inner e => by
    -- the end tag takes back what the start tag opened
    have hs : opened n (Content.element s inner e).tokens =
        opened (n + 1) (tokensAll inner ++ [.finish e]) := by rw [Content.tokens]; rfl
    rw [hs, opened_append, opened_tokensAll (n + 1) inner]
    rfl

theorem opened_tokensAll (n : Nat) : ∀ cs : List Content, opened n (tokensAll cs) = n
  | [] => rfl
  | c :: cs => by
    rw [tokensAll, opened_append, opened_tokens n c, opened_tokensAll n cs]

end

mutual

theorem exists_level_tokens {limit n : Nat} (h : n ≤ limit) : ∀ c : Content,
    (∃ l ∈ tagLevels n c.tokens, limit < l) ↔ limit < n + c.depth
  | .aside a => by
    simp [Content.tokens, tagLevels, Token.level?, Content.depth, h]
  | .empty t => by
    simp [Content.tokens, tagLevels, Token.level?, Content.depth]
  | .element s inner e => by
    have hl : tagLevels n (Content.element s inner e).tokens =
        (n + 1) :: tagLevels (n + 1) (tokensAll inner) := by
      rw [Content.tokens, tagLevels, tagLevels_append]
      simp [tagLevels, Token.level?, Token.opened]
    have hd : n + (Content.element s inner e).depth = n + 1 + depthAll inner := by
      rw [Content.depth]
      omega
    rw [hl, hd]
    simp only [List.mem_cons, or_and_right, exists_or, exists_eq_left]
    -- the tag itself is past the limit, or the levels inside it decide
    by_cases hn : limit < n + 1
    · exact ⟨fun _ => by omega, fun _ => .inl hn⟩
    · rw [← exists_level_tokensAll (Nat.not_lt.1 hn) inner, or_iff_right hn]

theorem exists_level_tokensAll {limit n : Nat} (h : n ≤ limit) : ∀ cs : List Content,
    (∃ l ∈ tagLevels n (tokensAll cs), limit < l) ↔ limit < n + depthAll cs
  | [] => by simp [tokensAll, tagLevels, depthAll, h]
  | c :: cs => by
    have hs : (∃ l ∈ tagLevels n (tokensAll (c :: cs)), limit < l) ↔
        (∃ l ∈ tagLevels n c.tokens, limit < l) ∨ ∃ l ∈ tagLevels n (tokensAll cs), limit < l := by
      rw [tokensAll, tagLevels_append, opened_tokens]
      simp only [List.mem_append, or_and_right, exists_or]
    rw [hs, exists_level_tokens h c, exists_level_tokensAll h cs, depthAll]
    omega

end

/-- The walk answers for the levels of the tags: where one of them is past the limit, it says so
whatever comes after the tokens, and otherwise it denies it for the tokens alone. For elements in
the order of a tree this is whether the tree is deeper than the limit. -/
theorem exceeds_iff_levels (limit : Nat) (ts : List Token) (cs : List Content) :
    ((∀ rest, exceeds limit 0 (written ts ++ rest) = true) ↔ ∃ l ∈ tagLevels 0 ts, limit < l) ∧
      (exceeds limit 0 (written ts) = true ↔ ∃ l ∈ tagLevels 0 ts, limit < l) ∧
      (exceeds limit 0 (written (tokensAll cs)) = true ↔ limit < depthAll cs) := by
  have halone := exceeds_written limit
  refine ⟨⟨fun h => ?_, fun h rest => ?_⟩, halone ts, ?_⟩
  · have h0 := h []
    rw [List.append_nil] at h0
    exact (halone ts).1 h0
  · rw [exceeds_append, Bool.or_eq_true]
    exact .inl (by simpa using h)
  · rw [halone, exists_level_tokensAll (Nat.zero_le limit), Nat.zero_add]

end TypedDoc.Markup.Depth

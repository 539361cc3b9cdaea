import TypedDoc.Markup.Fault

/-!
# Lexemes

Markup falls into runs of text and five kinds of pieces that start with a less-than sign. What
stands inside a tag is looked at later; here only the end of each piece is found.

Splitting a text into lexemes loses nothing: written one after another, they are the text
(`flatMap_written_of_split`). Reading does not rest on this. It is a result of its own, and says of
the splitter that no character is passed over, taken twice or taken out of turn.
-/

namespace TypedDoc.Markup

/-- A piece of markup without the characters that open and close it. -/
inductive Lexeme where
  | text (cs : List Char)
  | comment (body : List Char)
  /-- A section of text in which nothing is markup. -/
  | verbatim (body : List Char)
  | instruction (body : List Char)
  | endTag (body : List Char)
  /-- A start tag, or the tag of an empty element, which ends in a slash. -/
  | startTag (body : List Char)
deriving DecidableEq

namespace Lexeme

/-- The characters of a lexeme. -/
def written : Lexeme → List Char
  | text cs => cs
  | comment body => ['<', '!', '-', '-'] ++ body ++ ['-', '-', '>']
  | verbatim body => ['<', '!', '[', 'C', 'D', 'A', 'T', 'A', '['] ++ body ++ [']', ']', '>']
  | instruction body => ['<', '?'] ++ body ++ ['?', '>']
  | endTag body => ['<', '/'] ++ body ++ ['>']
  | startTag body => '<' :: body ++ ['>']

/-- The characters before the first occurrence of an ending, after some others in reverse, and
those past it. -/
def takePast (ending body : List Char) : List Char → Except Fault (List Char × List Char)
  | [] => .error .unclosed
  | c :: cs =>
    if ending.isPrefixOf (c :: cs) then .ok (body.reverse, cs.drop (ending.length - 1))
    else takePast ending (c :: body) cs

/-- The characters before the end of a tag, which is not between quotes, and those past it. -/
def takeTag (quote : Option Char) (body : List Char) :
    List Char → Except Fault (List Char × List Char)
  | [] => .error .unclosed
  | c :: cs =>
    match quote with
    | some q => takeTag (if c == q then none else some q) (c :: body) cs
    | none =>
      if c == '>' then .ok (body.reverse, cs)
      else takeTag (if c == '"' || c == '\'' then some c else none) (c :: body) cs

/-- Makes a lexeme of what has been taken. -/
def make (kind : List Char → Lexeme) (taken : Except Fault (List Char × List Char)) :
    Except Fault (Lexeme × List Char) :=
  taken.map fun t => (kind t.1, t.2)

/-- The lexeme after a less-than sign. -/
def markup (cs : List Char) : Except Fault (Lexeme × List Char) :=
  match cs with
  | '!' :: '-' :: '-' :: rest => make comment (takePast ['-', '-', '>'] [] rest)
  | '!' :: '[' :: 'C' :: 'D' :: 'A' :: 'T' :: 'A' :: '[' :: rest =>
    make verbatim (takePast [']', ']', '>'] [] rest)
  | '!' :: _ => .error .documentType
  | '?' :: rest => make instruction (takePast ['?', '>'] [] rest)
  | '/' :: rest => make endTag (takePast ['>'] [] rest)
  | rest => make startTag (takeTag none [] rest)

/-- The first lexeme of a text that starts with `c`, and what follows it. -/
def next (c : Char) (cs : List Char) : Except Fault (Lexeme × List Char) :=
  if c = '<' then markup cs
  else .ok (text (c :: cs.takeWhile (· != '<')), cs.dropWhile (· != '<'))

theorem length_takePast {ending body cs taken rest : List Char}
    (h : takePast ending body cs = .ok (taken, rest)) : rest.length < cs.length := by
  induction cs generalizing body with
  | nil => simp [takePast] at h
  | cons c cs ih =>
    simp only [takePast] at h
    split at h
    · simp only [Except.ok.injEq, Prod.mk.injEq] at h
      rw [← h.2, List.length_drop, List.length_cons]
      omega
    · exact Nat.lt_succ_of_lt (ih h)

theorem length_takeTag {quote : Option Char} {body cs taken rest : List Char}
    (h : takeTag quote body cs = .ok (taken, rest)) : rest.length < cs.length := by
  induction cs generalizing quote body with
  | nil => simp [takeTag] at h
  | cons c cs ih =>
    simp only [takeTag] at h
    split at h
    · exact Nat.lt_succ_of_lt (ih h)
    · split at h
      · simp only [Except.ok.injEq, Prod.mk.injEq] at h
        rw [← h.2, List.length_cons]
        omega
      · exact Nat.lt_succ_of_lt (ih h)

theorem of_make {kind : List Char → Lexeme} {taken : Except Fault (List Char × List Char)}
    {l : Lexeme} {rest : List Char} (h : make kind taken = .ok (l, rest)) :
    ∃ body, taken = .ok (body, rest) ∧ l = kind body := by
  cases taken with
  | error f => simp [make, Except.map] at h
  | ok t =>
    simp only [make, Except.map, Except.ok.injEq, Prod.mk.injEq] at h
    exact ⟨t.1, by rw [← h.2], h.1.symm⟩

theorem length_markup {cs rest : List Char} {l : Lexeme} (h : markup cs = .ok (l, rest)) :
    rest.length < cs.length := by
  unfold markup at h
  split at h
  case h_3 => simp at h
  case h_6 =>
    obtain ⟨body, hb, -⟩ := of_make h
    exact length_takeTag hb
  all_goals
    obtain ⟨body, hb, -⟩ := of_make h
    have := length_takePast hb
    simp only [List.length_cons]
    omega

theorem length_next {c : Char} {cs rest : List Char} {l : Lexeme}
    (h : next c cs = .ok (l, rest)) : rest.length ≤ cs.length := by
  unfold next at h
  split at h
  · exact Nat.le_of_lt (length_markup h)
  · simp only [Except.ok.injEq, Prod.mk.injEq] at h
    rw [← h.2]
    exact (List.dropWhile_sublist _).length_le

/-- The lexemes of a text, after some others in reverse. -/
def split (done : List Lexeme) (cs : List Char) : Except Fault (List Lexeme) :=
  match cs with
  | [] => .ok done.reverse
  | c :: cs =>
    match _h : next c cs with
    | .error fault => .error fault
    | .ok (l, rest) => split (l :: done) rest
termination_by cs.length
decreasing_by exact Nat.lt_succ_of_le (length_next _h)

/-! ## Nothing is lost -/

theorem append_of_takePast {ending body cs taken rest : List Char} (he : ending ≠ [])
    (h : takePast ending body cs = .ok (taken, rest)) :
    body.reverse ++ cs = taken ++ ending ++ rest := by
  induction cs generalizing body with
  | nil => simp [takePast] at h
  | cons c cs ih =>
    simp only [takePast] at h
    split at h
    · next hp =>
      obtain ⟨t, ht⟩ := List.isPrefixOf_iff_prefix.1 hp
      obtain ⟨e, es, rfl⟩ := List.exists_cons_of_ne_nil he
      obtain ⟨rfl, rfl⟩ := List.cons_eq_cons.1 ht
      simp only [Except.ok.injEq, Prod.mk.injEq] at h
      rw [← h.1, ← h.2]
      simp
    · rw [← ih h]
      simp

theorem append_of_takeTag {quote : Option Char} {body cs taken rest : List Char}
    (h : takeTag quote body cs = .ok (taken, rest)) :
    body.reverse ++ cs = taken ++ ['>'] ++ rest := by
  induction cs generalizing quote body with
  | nil => simp [takeTag] at h
  | cons c cs ih =>
    simp only [takeTag] at h
    split at h
    · rw [← ih h]
      simp
    · split at h
      · next hc =>
        simp only [Except.ok.injEq, Prod.mk.injEq] at h
        rw [← h.1, ← h.2, beq_iff_eq.1 hc]
        simp
      · rw [← ih h]
        simp

theorem written_append_of_markup {cs rest : List Char} {l : Lexeme}
    (h : markup cs = .ok (l, rest)) : l.written ++ rest = '<' :: cs := by
  unfold markup at h
  split at h
  case h_3 => simp at h
  case h_6 =>
    obtain ⟨body, hb, rfl⟩ := of_make h
    have ha := append_of_takeTag hb
    rw [List.reverse_nil, List.nil_append] at ha
    rw [ha]
    simp [written]
  all_goals
    obtain ⟨body, hb, rfl⟩ := of_make h
    have ha := append_of_takePast (List.cons_ne_nil _ _) hb
    rw [List.reverse_nil, List.nil_append] at ha
    rw [ha]
    simp [written]

theorem written_append_of_next {c : Char} {cs rest : List Char} {l : Lexeme}
    (h : next c cs = .ok (l, rest)) : l.written ++ rest = c :: cs := by
  unfold next at h
  split at h
  · next hc => rw [hc]; exact written_append_of_markup h
  · simp only [Except.ok.injEq, Prod.mk.injEq] at h
    rw [← h.1, ← h.2]
    exact congrArg (c :: ·) List.takeWhile_append_dropWhile

/-- The lexemes of a text, written one after another, are the text. -/
theorem flatMap_written_of_split {done ls : List Lexeme} {cs : List Char}
    (h : split done cs = .ok ls) : ls.flatMap written = done.reverse.flatMap written ++ cs := by
  fun_induction split done cs with
  | case1 done =>
    obtain rfl := Except.ok.inj h
    simp
  | case2 => cases h
  | case3 done c cs l rest hn ih =>
    rw [ih h, List.reverse_cons, List.flatMap_append, List.append_assoc,
      ← written_append_of_next hn]
    simp

end Lexeme

end TypedDoc.Markup

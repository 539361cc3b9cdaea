import TypedDoc.CommandLine
import TypedDoc.Proofs.Bounds
import TypedDoc.Proofs.Exporting
import TypedDoc.Proofs.Quoting

/-!
# What the text of a document tells

The beginning of a text tells the kind of the value (`Value.Opens.kindOfText_append`): every kind
has openings of its own but the numbers, and among these a floating-point number is known by a
point, an exponent or a letter. Where a text ends is told by a quote, by a bracket, or, for numbers,
by what may follow them: a delimiter or nothing (`Ends`). So texts that agree together with what
follows them are of values that are the same but for their NaNs, and what follows is the same
(`Value.text_append_inj`); with nothing after them, they are of the same document
(`Document.text_eq_iff`).

For the program this means that its answer to `inspect` gives an input away: two inputs that can be
decoded are shown alike exactly if their documents are the same but for their NaNs
(`CommandLine.Command.answer_inspect_eq_iff`). This is a result about the program in its own right.
What it takes beside the above is that a document that was read has bytes of subtype 0 and patterns
with known options only (`Document.legible_of_read`).
-/

namespace TypedDoc

open Numeral (Binary64 Decimal Layout)
open Text (quoted quoted_append_inj)

/-! ## Words and sequences -/

/-- The characters that end a number. -/
def isDelimiter (c : Char) : Bool := c ∈ [',', ')', ']']

/-- What follows the text of a value: a delimiter, or nothing. -/
def Ends (r : List Char) : Prop := ∀ c ∈ r.head?, isDelimiter c = true

theorem ends_nil : Ends [] := nofun

theorem ends_cons {c : Char} (h : isDelimiter c = true) (r : List Char) : Ends (c :: r) := by
  rintro d ⟨⟩
  exact h

/-- The characters of a word. -/
def Undelimited (cs : List Char) : Prop := ∀ c ∈ cs, isDelimiter c = false

instance (cs : List Char) : Decidable (Undelimited cs) :=
  List.decidableBAll (isDelimiter · = false) cs

theorem undelimited_append {cs ds : List Char} :
    Undelimited (cs ++ ds) ↔ Undelimited cs ∧ Undelimited ds := List.forall_mem_append

/-- The characters before the first delimiter. -/
def word (cs : List Char) : List Char := cs.takeWhile (!isDelimiter ·)

theorem word_append {cs r : List Char} (h : Undelimited cs) (hr : Ends r) :
    word (cs ++ r) = cs := by
  have hrest : r.takeWhile (!isDelimiter ·) = [] := by
    cases r with
    | nil => rfl
    | cons c r => exact List.takeWhile_cons_of_neg (by simp [hr c rfl])
  rw [word, List.takeWhile_append_of_pos (by simpa [Undelimited] using h), hrest, List.append_nil]

theorem word_append_inj {cs ds r r' : List Char} (hc : Undelimited cs) (hd : Undelimited ds)
    (hr : Ends r) (hr' : Ends r') (h : cs ++ r = ds ++ r') : cs = ds ∧ r = r' := by
  have hword := congrArg word h
  rw [word_append hc hr, word_append hd hr'] at hword
  subst hword
  exact ⟨rfl, List.append_cancel_left h⟩

/-- Words that are read back are told by what is read. -/
theorem word_read_inj {α ε : Type} {read : List Char → Except ε α} {a b : α}
    {cs ds r r' : List Char} (hc : Undelimited cs) (hd : Undelimited ds) (hr : Ends r)
    (hr' : Ends r') (ha : read cs = .ok a) (hb : read ds = .ok b) (h : cs ++ r = ds ++ r') :
    a = b ∧ r = r' := by
  obtain ⟨rfl, hrest⟩ := word_append_inj hc hd hr hr' h
  exact ⟨Except.ok.inj (ha.symm.trans hb), hrest⟩

/-- Quoted text behind a name, in parentheses. -/
theorem named_append_inj {name s t : String} {r r' : List Char}
    (h : (name ++ quoted s ++ ")").toList ++ r = (name ++ quoted t ++ ")").toList ++ r') :
    s = t ∧ r = r' := by
  simp only [String.toList_append, List.append_assoc, List.append_cancel_left_eq] at h
  obtain ⟨hst, hrest⟩ := quoted_append_inj h
  exact ⟨hst, List.append_cancel_left hrest⟩

theorem intercalate_cons (sep a : List Char) (as : List (List Char)) :
    sep.intercalate (a :: as) = a ++ as.flatMap (sep ++ ·) := by
  induction as generalizing a with
  | nil => simp
  | cons b as ih => rw [List.intercalate_cons_cons, ih b, List.flatMap_cons, List.append_assoc,
      List.append_assoc]

section Sequences

variable {α β : Type} {f : α → List Char} {g : β → List Char} {R : α → β → Prop}
  {as : List α} {bs : List β} {r r' : List Char}

theorem ends_items (as : List α) (r : List Char) :
    Ends (as.flatMap ([',', ' '] ++ f ·) ++ ']' :: r) := by
  cases as with
  | nil => exact ends_cons rfl r
  | cons a as => exact ends_cons rfl _

/-- The items of a sequence after the first one. -/
theorem items_append_inj
    (hitem : ∀ a ∈ as, ∀ b ∈ bs, ∀ s s', Ends s → Ends s' → f a ++ s = g b ++ s' →
      R a b ∧ s = s')
    (h : as.flatMap ([',', ' '] ++ f ·) ++ ']' :: r =
      bs.flatMap ([',', ' '] ++ g ·) ++ ']' :: r') : List.Forall₂ R as bs ∧ r = r' := by
  induction as generalizing bs with
  | nil =>
    cases bs with
    | nil => exact ⟨.nil, (List.cons.inj h).2⟩
    | cons b bs => cases (List.cons.inj h).1
  | cons a as ih =>
    cases bs with
    | nil => cases (List.cons.inj h).1
    | cons b bs =>
      simp only [List.flatMap_cons, List.append_assoc, List.append_cancel_left_eq] at h
      obtain ⟨hab, htail⟩ := hitem a List.mem_cons_self b List.mem_cons_self _ _
        (ends_items as r) (ends_items bs r') h
      obtain ⟨habs, hr⟩ := ih (fun a ha b hb =>
        hitem a (List.mem_cons_of_mem _ ha) b (List.mem_cons_of_mem _ hb)) htail
      exact ⟨.cons hab habs, hr⟩

/-- A sequence tells its items and where it ends, if its items do and do not begin as it ends. -/
theorem sequence_append_inj (hf : ∀ a s, (f a ++ s).head? ≠ some ']')
    (hg : ∀ b s, (g b ++ s).head? ≠ some ']')
    (hitem : ∀ a ∈ as, ∀ b ∈ bs, ∀ s s', Ends s → Ends s' → f a ++ s = g b ++ s' →
      R a b ∧ s = s')
    (h : [',', ' '].intercalate (as.map f) ++ ']' :: r =
      [',', ' '].intercalate (bs.map g) ++ ']' :: r') : List.Forall₂ R as bs ∧ r = r' := by
  cases as with
  | nil =>
    cases bs with
    | nil => exact ⟨.nil, (List.cons.inj h).2⟩
    | cons b bs =>
      rw [List.map_cons, intercalate_cons, List.append_assoc] at h
      exact absurd (congrArg List.head? h).symm (hg b _)
  | cons a as =>
    cases bs with
    | nil =>
      rw [List.map_cons, intercalate_cons, List.append_assoc] at h
      exact absurd (congrArg List.head? h) (hf a _)
    | cons b bs =>
      refine items_append_inj hitem ?_
      simp only [List.map_cons, intercalate_cons, List.flatMap_map, List.append_assoc] at h
      simp only [List.flatMap_cons, List.append_assoc, h]

end Sequences

/-! ## The texts of numbers -/

/-- The characters that texts of numbers begin with. -/
def startsNumber (c : Char) : Bool := c.isDigit || c ∈ ['-', '.', 'N', 'i']

/-- The characters of which texts of floating-point numbers have one, and those of integers none. -/
def marksFraction (c : Char) : Bool := c ∈ ['.', 'e', 'N', 'i']

/-- A word by which a number may be written. -/
structure IsNumber (cs : List Char) : Prop where
  starts : ∃ c rest, cs = c :: rest ∧ startsNumber c = true
  undelimited : Undelimited cs

theorem isDelimiter_of_isNumeral {c : Char} (h : Numeral.IsNumeral c) : isDelimiter c = false := by
  have hdelimiters : ∀ d ∈ [',', ')', ']'], ¬ Numeral.IsNumeral d := by
    simp only [List.forall_mem_cons, List.not_mem_nil, false_implies, implies_true, and_true]
    decide
  exact decide_eq_false fun hc => hdelimiters c hc h

theorem IsNumber.minus {cs : List Char} (h : IsNumber cs) : IsNumber ('-' :: cs) :=
  ⟨⟨'-', cs, rfl, rfl⟩, List.forall_mem_cons.2 ⟨rfl, h.undelimited⟩⟩

namespace Numeral

theorem isNumber_toDigits (n : Nat) : IsNumber (Nat.toDigits 10 n) := by
  have hdigits := Layout.isNumeral_toDigits n
  refine ⟨?_, fun c hc => isDelimiter_of_isNumeral (hdigits c hc)⟩
  obtain ⟨c, rest, h⟩ := List.exists_cons_of_ne_nil (Integer.isDigits_toDigits n).1
  refine ⟨c, rest, h, ?_⟩
  have hc : c.isDigit = true := Nat.isDigit_of_mem_toDigits (by decide) (by decide)
    (h ▸ List.mem_cons_self)
  rw [startsNumber, hc, Bool.true_or]

theorem Integer.isNumber_text (n : Int64) : IsNumber (text n).toList := by
  rw [text, toList_toString]
  split_ifs
  · exact (isNumber_toDigits _).minus
  · exact isNumber_toDigits _

theorem Integer.marksFraction_text (n : Int64) : (text n).toList.any marksFraction = false := by
  have hmarks : ∀ c ∈ ['.', 'e', 'N', 'i'], c.isDigit = false := by
    simp only [List.forall_mem_cons, List.not_mem_nil, false_implies, implies_true, and_true]
    decide
  have hdigits : ∀ m, (Nat.toDigits 10 m).any marksFraction = false := fun m =>
    List.any_eq_false.2 fun c hc hmark => Bool.false_ne_true <|
      (hmarks c (of_decide_eq_true hmark)).symm.trans
        (Nat.isDigit_of_mem_toDigits (by decide) (by decide) hc)
  rw [text, toList_toString]
  split_ifs
  · rw [List.any_cons, hdigits]
    rfl
  · exact hdigits _

theorem Layout.isNumber_magnitude (layout : Layout) {x : Binary64} (h : x.isFinite = true) :
    IsNumber (layout.magnitude x) := by
  obtain ⟨d, hd, -⟩ := layout.readUnsigned_magnitude h
  obtain ⟨c, rest, heq, hc⟩ := Decimal.head_of_readUnsigned hd
  refine ⟨⟨c, rest, heq, ?_⟩, fun c hc =>
    isDelimiter_of_isNumeral (layout.isNumeral_magnitude x c hc)⟩
  rcases hc with hc | rfl
  · rw [startsNumber, hc, Bool.true_or]
  · rfl

theorem Layout.marksFraction_magnitude (layout : Layout) (x : Binary64) :
    (layout.magnitude x).any marksFraction = true := by
  have hpoint : ∀ cs : List Char, '.' ∈ cs → cs.any marksFraction = true := fun cs h =>
    List.any_eq_true.2 ⟨'.', h, rfl⟩
  unfold magnitude
  simp only []
  split_ifs
  · rfl
  · refine hpoint _ ?_
    unfold positional
    split_ifs <;> simp
  · refine List.any_eq_true.2 ⟨'e', ?_, rfl⟩
    simp [scientific]

theorem Layout.isNumber_text (layout : Layout) (x : Binary64) :
    IsNumber (layout.text x).toList ∧ (layout.text x).toList.any marksFraction = true := by
  unfold text
  split_ifs with hfinite
  · have hnumber := layout.isNumber_magnitude hfinite
    have hmark := layout.marksFraction_magnitude x
    unfold finite
    rw [String.toList_ofList]
    split_ifs
    · exact ⟨hnumber.minus, by rw [List.any_cons, hmark, Bool.or_true]⟩
    · exact ⟨hnumber, hmark⟩
  · exact ⟨⟨⟨'N', _, rfl, rfl⟩, by decide⟩, by decide⟩
  · exact ⟨⟨⟨'-', _, rfl, rfl⟩, by decide⟩, by decide⟩
  · exact ⟨⟨⟨'i', _, rfl, rfl⟩, by decide⟩, by decide⟩

end Numeral

theorem Numeral.Layout.text_canonical (layout : Layout) (x : Binary64) :
    layout.text x.canonical = layout.text x := by
  unfold Binary64.canonical
  split_ifs with hnan
  · rw [text, text, if_neg (Binary64.not_isFinite_of_isNaN hnan), if_pos hnan]
    rfl
  · rfl

theorem Timestamp.undelimited_text (t : Timestamp) : Undelimited t.text.toList := by
  have hpadded : ∀ width n, Undelimited (padded width n).toList := fun width n c hc =>
    isDelimiter_of_isNumeral (.inl (isDigit_of_mem_padded hc))
  have hyear : ∀ y, Undelimited (yearText y).toList := by
    intro y
    unfold yearText
    split_ifs
    · rw [String.toList_append, undelimited_append]
      exact ⟨by decide, hpadded _ _⟩
    · exact hpadded _ _
    · rw [String.toList_append, undelimited_append]
      exact ⟨by decide, hpadded _ _⟩
  simp only [text, toSeconds, String.toList_append, undelimited_append, hpadded, hyear]
  decide

/-! ## The texts of values -/

namespace Value

/-- How the texts of values other than numbers begin. -/
def openings : List (String × Kind) :=
  [("null", .null), ("true", .boolean), ("false", .boolean), ("\"", .string),
    ("Binary(", .binary), ("[", .array), ("Document([", .document), ("DateTime(", .date),
    ("Regex(", .regex), ("ObjectId(", .objectId), ("DBRef(", .reference), ("Code(", .code)]

/-- The kind of the value whose text comes first. -/
def kindOfText (cs : List Char) : Kind :=
  match openings.find? fun o => o.1.toList.isPrefixOf cs with
  | some o => o.2
  | none => if (word cs).any marksFraction then .number else .integer

theorem openings_apart :
    ∀ o ∈ openings, ∀ p ∈ openings, p.1.toList <+: o.1.toList → p = o := by decide

theorem exists_head_openings {o : String × Kind} (ho : o ∈ openings) :
    ∃ c cs, o.1.toList = c :: cs ∧ startsNumber c = false ∧ c ≠ ']' := by
  have hheads : ∀ o ∈ openings,
      o.1.toList.head?.any (fun c => !startsNumber c && c != ']') = true := by decide
  have hhead := hheads o ho
  rcases hchars : o.1.toList with _ | ⟨c, cs⟩
  · rw [hchars] at hhead
    cases hhead
  · rw [hchars, List.head?_cons, Option.any_some, Bool.and_eq_true, bne_iff_ne,
      Bool.not_eq_true'] at hhead
    exact ⟨c, cs, rfl, hhead⟩

/-- How a text of that kind begins. -/
inductive Opens : Kind → List Char → Prop
  | opening (o : String × Kind) {cs : List Char} (ho : o ∈ openings) (h : o.1.toList <+: cs) :
    Opens o.2 cs
  | number {cs : List Char} (h : IsNumber cs) :
    Opens (if cs.any marksFraction then .number else .integer) cs

theorem find?_openings {o : String × Kind} {cs : List Char} (ho : o ∈ openings)
    (h : o.1.toList <+: cs) : openings.find? (fun p => p.1.toList.isPrefixOf cs) = some o := by
  rcases hfind : openings.find? (fun p => p.1.toList.isPrefixOf cs) with _ | p
  · exact absurd (List.isPrefixOf_iff_prefix.2 h) (List.find?_eq_none.1 hfind o ho)
  · have hp := List.mem_of_find?_eq_some hfind
    have hprefix := List.find?_some hfind
    rw [List.isPrefixOf_iff_prefix] at hprefix
    rcases List.prefix_or_prefix_of_prefix hprefix h with hpo | hop
    · rw [hfind, openings_apart o ho p hp hpo]
    · rw [hfind, ← openings_apart p hp o ho hop]

theorem find?_openings_number {c : Char} (h : startsNumber c = true) (cs : List Char) :
    openings.find? (fun p => p.1.toList.isPrefixOf (c :: cs)) = none := by
  refine List.find?_eq_none.2 fun o ho hprefix => ?_
  obtain ⟨d, ds, hchars, hd, -⟩ := exists_head_openings ho
  rw [hchars, List.isPrefixOf_iff_prefix, List.cons_prefix_cons] at hprefix
  rw [← hprefix.1, hd] at h
  cases h

theorem Opens.kindOfText_append {k : Kind} {cs r : List Char} (h : Opens k cs) (hr : Ends r) :
    kindOfText (cs ++ r) = k := by
  cases h with
  | opening o ho h =>
    rw [kindOfText, find?_openings ho (h.trans (List.prefix_append cs r))]
  | number h =>
    obtain ⟨c, rest, hcons, hstarts⟩ := h.starts
    have hfind := find?_openings_number hstarts (rest ++ r)
    rw [← List.cons_append, ← hcons] at hfind
    rw [kindOfText, hfind, word_append h.undelimited hr]

theorem Opens.head?_ne {k : Kind} {cs : List Char} (h : Opens k cs) (r : List Char) :
    (cs ++ r).head? ≠ some ']' := by
  cases h with
  | opening o ho h =>
    obtain ⟨rest, rfl⟩ := h
    obtain ⟨c, cs, hchars, -, hc⟩ := exists_head_openings ho
    rw [hchars]
    exact fun hhead => hc (Option.some.inj hhead)
  | number h =>
    obtain ⟨c, rest, rfl, hstarts⟩ := h.starts
    rintro ⟨⟩
    cases hstarts

theorem itemTexts_eq (vs : List Value) : itemTexts vs = vs.map text :=
  eq_map_of_cons rfl (fun _ _ => rfl) vs

theorem entryTexts_eq (es : List (String × Value)) :
    entryTexts es = es.map fun e => (e.1, e.2.text) := eq_map_of_cons rfl (fun _ _ => rfl) es

end Value

/-- The characters of a pair in the text of a document. -/
def Document.pairText (p : String × Value) : List Char :=
  ['('] ++ (quoted p.1).toList ++ [',', ' '] ++ p.2.text.toList ++ [')']

theorem Document.head?_pairText (p : String × Value) (s : List Char) :
    (pairText p ++ s).head? ≠ some ']' := by
  simp [pairText]

theorem Document.pairText_append_inj {p q : String × Value} {s s' : List Char}
    (hvalue : ∀ r r', Ends r → Ends r' → p.2.text.toList ++ r = q.2.text.toList ++ r' →
      p.2.canonical = q.2.canonical ∧ r = r')
    (h : pairText p ++ s = pairText q ++ s') :
    (p.1 = q.1 ∧ p.2.canonical = q.2.canonical) ∧ s = s' := by
  simp only [pairText, List.append_assoc, List.append_cancel_left_eq] at h
  obtain ⟨hkey, hrest⟩ := quoted_append_inj h
  obtain ⟨hcanonical, hrest⟩ := hvalue _ _ (ends_cons rfl s) (ends_cons rfl s')
    (List.append_cancel_left hrest)
  exact ⟨⟨hkey, hcanonical⟩, (List.cons.inj hrest).2⟩

theorem Document.toList_text (d : Document) : d.text.toList =
    "Document([".toList ++ [',', ' '].intercalate (d.items.map pairText) ++ [']', ')'] := by
  have hpair : ∀ p : String × Value,
      ("(" ++ quoted p.1 ++ ", " ++ p.2.text ++ ")").toList = pairText p := fun p => by
    simp [pairText]
  rw [text, textOfPairs, Value.entryTexts_eq, Table.arrange_map, String.toList_append,
    String.toList_append, String.toList_intercalate, List.map_map, List.map_map]
  simp only [Function.comp_def, hpair]
  rfl

namespace Value

theorem text_document (d : Document) : (document d).text = d.text := rfl

theorem toList_text_array (items : List Value) : (array items).text.toList =
    ['['] ++ [',', ' '].intercalate (items.map fun v => v.text.toList) ++ [']'] := by
  rw [text, itemTexts_eq, String.toList_append, String.toList_append, String.toList_intercalate,
    List.map_map]
  rfl

theorem opens_text (v : Value) : Opens v.kind v.text.toList := by
  cases v with
  | null => exact .opening ("null", .null) (by decide) List.prefix_rfl
  | boolean b =>
    cases b with
    | false => exact .opening ("false", .boolean) (by decide) List.prefix_rfl
    | true => exact .opening ("true", .boolean) (by decide) List.prefix_rfl
  | integer n =>
    have h := Opens.number (Numeral.Integer.isNumber_text n)
    rw [Numeral.Integer.marksFraction_text] at h
    exact h
  | number x =>
    obtain ⟨hnumber, hmark⟩ := numberLayout.isNumber_text x
    have h := Opens.number hnumber
    rw [hmark] at h
    exact h
  | string s => exact .opening ("\"", .string) (by decide) (by simp [text, Text.toList_quoted])
  | binary b => exact .opening ("Binary(", .binary) (by decide) (by simp [text])
  | array items => exact .opening ("[", .array) (by decide) (by simp [text])
  | document d =>
    exact .opening ("Document([", .document) (by decide)
      (by simp [text_document, Document.toList_text])
  | date t => exact .opening ("DateTime(", .date) (by decide) (by simp [text])
  | regex r => exact .opening ("Regex(", .regex) (by decide) (by simp [text])
  | objectId o => exact .opening ("ObjectId(", .objectId) (by decide) (by simp [text])
  | reference c id => exact .opening ("DBRef(", .reference) (by decide) (by simp [text])
  | code s => exact .opening ("Code(", .code) (by decide) (by simp [text])

theorem kind_eq_of_text_append_eq {v w : Value} {r r' : List Char} (hr : Ends r) (hr' : Ends r')
    (h : v.text.toList ++ r = w.text.toList ++ r') : v.kind = w.kind := by
  rw [← v.opens_text.kindOfText_append hr, h, w.opens_text.kindOfText_append hr']

/-- The text of a value tells its contents: no subtype, nor an option without a letter, is left
out. A document lists each of its keys once. -/
def Spelled : Value → Prop
  | document d => d.WellFormed
  | binary b => b.subtype = 0
  | regex r => r.options.unknown = 0
  | _ => True

/-- In a value all bytes have the subtype zero, and all patterns have known options only. -/
def Legible (v : Value) : Prop := ∀ w, v.Inner w → w.Spelled

theorem Legible.of_mem_parts {v w : Value} (h : v.Legible) (hw : w ∈ v.parts) : w.Legible :=
  fun u hu => h u (.of_part hw hu)

/-- A value, but for its NaNs, and what follows it are told by their text together. -/
theorem text_append_inj : ∀ v w : Value, v.Legible → w.Legible → ∀ r r', Ends r → Ends r' →
    v.text.toList ++ r = w.text.toList ++ r' → v.canonical = w.canonical ∧ r = r' := by
  intro v
  induction v using Value.induction with
  | h v ih =>
    intro w hv hw r r' hr hr' h
    have hparts : ∀ a ∈ v.parts, ∀ b ∈ w.parts, ∀ s s', Ends s → Ends s' →
        a.text.toList ++ s = b.text.toList ++ s' → a.canonical = b.canonical ∧ s = s' :=
      fun a ha b hb => ih a ha b (hv.of_mem_parts ha) (hw.of_mem_parts hb)
    have hclose : ∀ s, Ends (")".toList ++ s) := ends_cons rfl
    cases sameKind_of_kind_eq (kind_eq_of_text_append_eq hr hr' h) with
    | null => exact ⟨rfl, List.append_cancel_left h⟩
    | boolean b c =>
      cases b <;> cases c
      · exact ⟨rfl, List.append_cancel_left h⟩
      · simp [text] at h
      · simp [text] at h
      · exact ⟨rfl, List.append_cancel_left h⟩
    | integer m n =>
      obtain ⟨rfl, hrest⟩ := word_read_inj (Numeral.Integer.isNumber_text m).undelimited
        (Numeral.Integer.isNumber_text n).undelimited hr hr' (Numeral.Integer.read_text m)
        (Numeral.Integer.read_text n) h
      exact ⟨rfl, hrest⟩
    | number x y =>
      obtain ⟨hnumber, hrest⟩ := word_read_inj (numberLayout.isNumber_text x).1.undelimited
        (numberLayout.isNumber_text y).1.undelimited hr hr' (Decimal.read_text numberLayout x)
        (Decimal.read_text numberLayout y) h
      rw [canonical, canonical, hnumber]
      exact ⟨rfl, hrest⟩
    | string s t =>
      obtain ⟨rfl, hrest⟩ := quoted_append_inj h
      exact ⟨rfl, hrest⟩
    | binary b c =>
      obtain ⟨hbytes, hrest⟩ := named_append_inj h
      rw [Binary.eq_of_base64_eq ((hv _ .self).trans (hw _ .self).symm) hbytes]
      exact ⟨rfl, hrest⟩
    | array as bs =>
      rw [toList_text_array, toList_text_array] at h
      simp only [List.append_assoc, List.append_cancel_left_eq] at h
      obtain ⟨hitems, hrest⟩ := sequence_append_inj (fun a => a.opens_text.head?_ne)
        (fun a => a.opens_text.head?_ne) hparts h
      rw [canonical, canonical, canonicalItems_eq, canonicalItems_eq]
      exact ⟨congrArg array (map_eq_map_iff_forall₂.2 hitems), hrest⟩
    | document d e =>
      rw [text_document, text_document, Document.toList_text, Document.toList_text] at h
      simp only [List.append_assoc, List.append_cancel_left_eq] at h
      obtain ⟨hitems, hrest⟩ := sequence_append_inj Document.head?_pairText
        Document.head?_pairText (fun p hp q hq s s' _ _ => Document.pairText_append_inj
          (hparts p.2 (OrderedMap.mem_values_of_mem hp) q.2 (OrderedMap.mem_values_of_mem hq))) h
      rw [canonical_document, canonical_document]
      exact ⟨congrArg document ((document_canonical_eq_iff (hv _ .self) (hw _ .self)).2 hitems),
        List.append_cancel_left hrest⟩
    | date t u =>
      simp only [text, String.toList_append, List.append_assoc, List.append_cancel_left_eq] at h
      obtain ⟨htext, hrest⟩ := word_append_inj t.undelimited_text u.undelimited_text
        (hclose r) (hclose r') h
      rw [Timestamp.text_injective (String.toList_inj.1 htext)]
      exact ⟨rfl, List.append_cancel_left hrest⟩
    | regex p q =>
      simp only [text, String.toList_append, List.append_assoc, List.append_cancel_left_eq] at h
      obtain ⟨hpattern, hrest⟩ := quoted_append_inj h
      obtain ⟨hletters, hrest⟩ := quoted_append_inj (List.append_cancel_left hrest)
      rw [Regex.eq_of_letters_eq (hv _ .self) (hw _ .self) hpattern hletters]
      exact ⟨rfl, List.append_cancel_left hrest⟩
    | objectId o p =>
      obtain ⟨hhex, hrest⟩ := named_append_inj h
      rw [ObjectId.hex_injective hhex]
      exact ⟨rfl, hrest⟩
    | reference b c v w =>
      simp only [text, String.toList_append, List.append_assoc, List.append_cancel_left_eq] at h
      obtain ⟨rfl, hrest⟩ := quoted_append_inj h
      obtain ⟨hid, hrest⟩ := hparts v List.mem_cons_self w List.mem_cons_self _ _
        (hclose r) (hclose r') (List.append_cancel_left hrest)
      rw [canonical, canonical, hid]
      exact ⟨rfl, List.append_cancel_left hrest⟩
    | code s t =>
      obtain ⟨rfl, hrest⟩ := named_append_inj h
      exact ⟨rfl, hrest⟩

theorem text_canonical (v : Value) : v.canonical.text = v.text := by
  induction v using Value.induction with
  | h v ih =>
    cases v with
    | number x => exact numberLayout.text_canonical x
    | array items =>
      have htexts : items.map (text ∘ canonical) = items.map text := List.map_congr_left ih
      rw [canonical, canonicalItems_eq, text, text, itemTexts_eq, itemTexts_eq, List.map_map,
        htexts]
    | document d =>
      have hpairs : (d.items.map fun p => Document.pairText (p.1, p.2.canonical)) =
          d.items.map Document.pairText := List.map_congr_left fun p hp => by
        rw [Document.pairText, Document.pairText, ih p.2 (OrderedMap.mem_values_of_mem hp)]
      rw [canonical_document, text_document, text_document, ← String.toList_inj,
        Document.toList_text, Document.toList_text, items_canonical, List.map_map]
      exact congrArg (fun texts => _ ++ [',', ' '].intercalate texts ++ _) hpairs
    | reference collection id =>
      rw [canonical, text, text, ih id List.mem_cons_self]
    | _ => rfl

theorem text_eq_text_iff {v w : Value} (hv : v.Legible) (hw : w.Legible) :
    v.text = w.text ↔ v.canonical = w.canonical := by
  refine ⟨fun h => ?_, fun h => by rw [← text_canonical v, h, text_canonical w]⟩
  exact (text_append_inj v w hv hw [] [] ends_nil ends_nil (by rw [h])).1

theorem legible_iff {v : Value} : v.Legible ↔ v.Spelled ∧ ∀ w ∈ v.parts, w.Legible :=
  forall_inner_iff

theorem legible_ofPairs {ps : List (String × Value)} (h : ∀ p ∈ ps, p.2.Legible) :
    (document (.ofPairs ps)).Legible := by
  refine legible_iff.2 ⟨OrderedMap.wellFormed_ofPairs ps, fun w hw => ?_⟩
  obtain ⟨p, hp, rfl⟩ := OrderedMap.mem_of_mem_values_ofPairs hw
  exact h p hp

theorem Fits.legible {depth length : Nat} {v : Value} (h : v.Fits depth length) : v.Legible := by
  intro w hw
  have hproper := h.proper w hw
  cases w with
  | document d => exact hproper
  | binary b => exact hproper
  | regex r => exact hproper
  | _ => trivial

end Value

/-- What is read has no subtypes and no unknown options, which the text would not tell. -/
theorem Document.legible_of_read {limits : Limits} {text : String} {d : Document}
    (h : Document.read limits text = .ok d) : (Value.document d).Legible := by
  unfold Document.read at h
  simp only [bind_eq_ok_iff] at h
  obtain ⟨-, -, root, -, htree⟩ := h
  obtain ⟨f, -, hf⟩ := Decode.children_of_tree htree
  exact (Decode.fits_children hf).legible

theorem Document.text_eq_text_iff {d e : Document} (hd : (Value.document d).Legible)
    (he : (Value.document e).Legible) : d.text = e.text ↔ d.canonical = e.canonical := by
  have hvalues := Value.text_eq_text_iff hd he
  rw [Value.canonical_document, Value.canonical_document, Value.document.injEq] at hvalues
  exact hvalues

namespace CommandLine.Command

theorem render_inspect_eq_iff (input : Option String) {d e : Document} :
    (inspect input).render d = (inspect input).render e ↔ d.text = e.text :=
  String.append_left_inj "\n"

theorem answer_inspect (input : Option String) {s : String} {d : Document}
    (h : Document.read {} s = .ok d) :
    (inspect input).answer s = { exit := 0, stdout := (inspect input).render d } := by
  simp only [answer, limits, h, target?]

/-- Two inputs are shown alike exactly if their documents are the same but for their NaNs. -/
theorem answer_inspect_eq_iff (input : Option String) {s t : String} {d e : Document}
    (hd : Document.read {} s = .ok d) (he : Document.read {} t = .ok e) :
    (inspect input).answer s = (inspect input).answer t ↔ d.canonical = e.canonical := by
  rw [answer_inspect input hd, answer_inspect input he, ← Document.text_eq_text_iff
    (Document.legible_of_read hd) (Document.legible_of_read he), ← render_inspect_eq_iff input]
  simp

end CommandLine.Command

/-- The ordered text is unambiguous as long as bytes have no subtype and patterns no unknown
options: documents have the same text, and are shown alike, exactly if they are the same but for
their NaNs, with the same keys in the same order and values of which that is true again. So it is
for values. -/
theorem Document.text_eq_iff {d e : Document} (hd : (Value.document d).Legible)
    (he : (Value.document e).Legible) :
    (d.text = e.text ↔ d.canonical = e.canonical)
      ∧ (d.text = e.text ↔ d.keys = e.keys
        ∧ List.Forall₂ (fun v w => v.canonical = w.canonical) d.values e.values)
      ∧ ((∀ x, (Value.document d).Inner (.number x) → x.isNaN = false) →
        (∀ x, (Value.document e).Inner (.number x) → x.isNaN = false) →
        d.text = e.text → d = e)
      ∧ (∀ input, (CommandLine.Command.inspect input).render d =
        (CommandLine.Command.inspect input).render e ↔ d.canonical = e.canonical)
      ∧ ∀ v w : Value, v.Legible → w.Legible → (v.text = w.text ↔ v.canonical = w.canonical) := by
  have htext := Document.text_eq_text_iff hd he
  refine ⟨htext, ?_, fun hnan hnan' h => ?_, fun input => ?_, fun v w => Value.text_eq_text_iff⟩
  · have hpairs := Value.document_canonical_eq_iff (hd _ .self) (he _ .self)
    rw [htext, hpairs]
    refine (forall₂_pairs_iff (R := fun v w : Value => v.canonical = w.canonical)).trans ?_
    rw [OrderedMap.WellFormed.keys_items (hd _ .self),
      OrderedMap.WellFormed.keys_items (he _ .self)]
    rfl
  · have hself : ∀ c : Document, (Value.document c).Legible →
        (∀ x, (Value.document c).Inner (.number x) → x.isNaN = false) →
        (Value.document c).canonical = .document c :=
      fun c hc hnan => Value.canonical_eq_self (fun b hb => hc _ hb) hnan
    have hcanonical := (Value.text_eq_text_iff hd he).1 h
    rw [hself d hd hnan, hself e he hnan'] at hcanonical
    exact Value.document.inj hcanonical
  · rw [CommandLine.Command.render_inspect_eq_iff, htext]

/-- Delimiters in a key and in a string, and NaNs that differ in their bits. -/
theorem Document.text_eq_iff_nan :
    Document.text (.ofPairs [("a\", 1), (\"b", .string "), ]\\"),
        ("c", .reference "r" (.array [.number (.nan true), .regex ⟨"x", ⟨2⟩⟩]))]) =
      Document.text (.ofPairs [("a\", 1), (\"b", .string "), ]\\"),
        ("c", .reference "r" (.array [.number (.nan false), .regex ⟨"x", ⟨2⟩⟩]))]) := by
  have hlegible : ∀ x, (Value.document (.ofPairs [("a\", 1), (\"b", .string "), ]\\"),
      ("c", .reference "r" (.array [.number x, .regex ⟨"x", ⟨2⟩⟩]))])).Legible := by
    intro x
    have hitem : ∀ v ∈ [Value.number x, .regex ⟨"x", ⟨2⟩⟩], v.Legible := by
      intro v hv
      rcases List.mem_pair.1 hv with rfl | rfl
      · exact Value.legible_iff.2 ⟨trivial, by rintro w ⟨⟩⟩
      · exact Value.legible_iff.2 ⟨rfl, by rintro w ⟨⟩⟩
    refine Value.legible_ofPairs fun p hp => ?_
    rcases List.mem_pair.1 hp with rfl | rfl
    · exact Value.legible_iff.2 ⟨trivial, by rintro w ⟨⟩⟩
    · refine Value.legible_iff.2 ⟨trivial, fun w hw => ?_⟩
      rw [List.mem_singleton.1 hw]
      exact Value.legible_iff.2 ⟨trivial, hitem⟩
  exact (Document.text_eq_iff (hlegible _) (hlegible _)).1.2 rfl

end TypedDoc

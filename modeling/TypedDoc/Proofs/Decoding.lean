import TypedDoc.Decode
import TypedDoc.Proofs.Digits
import TypedDoc.Proofs.Outcome

/-!
# Steps of decoding

What decoding does at one element, rule by rule, said without unfolding it any further: the rules
that read text only (`scalar?`), those that go down to the children, and what it takes for each of
them to succeed. The document of some children is made by writing the pairs of their names and
values one after another (`members_eq_ok_iff`).
-/

namespace TypedDoc

theorem Field.induction {P : Field → Prop} (h : ∀ f, (∀ g ∈ f.children, P g) → P f) :
    ∀ f, P f
  | .mk tag name text children => h _ fun g _ => Field.induction h g
termination_by f => sizeOf f
decreasing_by
  have := List.sizeOf_lt_of_mem ‹g ∈ _›
  simp only [Field.children, Field.mk.sizeOf_spec] at this ⊢
  omega

theorem Rule.ofTag?_eq_some_iff {tag : String} {r : Rule} :
    ofTag? tag = some r ↔ (tag, r) ∈ table := by
  unfold ofTag?
  refine ⟨?_, ?_⟩
  · intro h
    obtain ⟨before, after, heq, -⟩ := List.lookup_eq_some_iff.1 h
    rw [heq]
    exact List.mem_append_right _ List.mem_cons_self
  · have htable : ∀ e ∈ table, table.lookup e.1 = some e.2 := by decide
    exact htable (tag, r)

theorem Rule.ofTag?_eq_none_iff {tag : String} : ofTag? tag = none ↔ tag ∉ table.map (·.1) := by
  rw [← not_iff_not, ← ne_eq, Option.ne_none_iff_exists', not_not, List.mem_map]
  refine ⟨?_, ?_⟩
  · rintro ⟨r, hr⟩
    exact ⟨_, ofTag?_eq_some_iff.1 hr, rfl⟩
  · rintro ⟨⟨_, r⟩, he, rfl⟩
    exact ⟨r, ofTag?_eq_some_iff.2 he⟩

/-- The kind of the values that a rule makes. -/
def Rule.kind : Rule → Kind
  | text => .string
  | binary => .binary
  | boolean => .boolean
  | code => .code
  | date => .date
  | integer => .integer
  | number => .number
  | null => .null
  | objectId => .objectId
  | document => .document
  | array => .array
  | reference => .reference
  | regex => .regex
  | options => .integer

namespace Decode

/-- What a rule that looks at nothing but the text makes of it. -/
def scalar? (tag : String) (text : Option String) : Rule → Option (Except Error Value)
  | .text => some (.ok (.string (text.getD "")))
  | .binary => some ((binary text).map .binary)
  | .boolean => some (.ok (.boolean (text == some "true")))
  | .code => some (.ok (.code (text.getD "")))
  | .date => some ((date tag text).map .date)
  | .integer => some ((integer tag text).map .integer)
  | .number => some ((number tag text).map .number)
  | .null => some (.ok .null)
  | .objectId => some ((ObjectId.read (text.getD "")).map .objectId)
  | .options =>
    some (.ok (.integer (Int64.ofInt (RegexOptions.ofLetters (text.getD "")).bits.toNat)))
  | .document | .array | .reference | .regex => none

/-- The rules that go down to the children are those of four tags. -/
theorem scalar?_eq_none_iff {tag : String} {text : Option String} {r : Rule}
    (hr : (tag, r) ∈ Rule.table) : scalar? tag text r = none ↔
      (tag = "doc" ∧ r = .document) ∨ (tag = "array" ∧ r = .array)
        ∨ (tag = "ref" ∧ r = .reference) ∨ (tag = "regex" ∧ r = .regex) := by
  cases r <;> simp [scalar?, Rule.table] at hr ⊢ <;> exact hr

/-- How decoding goes on at an element, by its tag and the number of its children. -/
inductive Shape (f : Field) : Prop
  | unknown (h : Rule.ofTag? f.tag = none)
  | scalar (r : Rule) (x : Except Error Value) (h : Rule.ofTag? f.tag = some r)
    (hx : scalar? f.tag f.text r = some x)
  | document (ht : f.tag = "doc") (h : Rule.ofTag? f.tag = some .document)
  | array (ht : f.tag = "array") (h : Rule.ofTag? f.tag = some .array)
  | reference (a b : Field) (ht : f.tag = "ref") (h : Rule.ofTag? f.tag = some .reference)
    (hc : f.children = [a, b])
  | regex (a b : Field) (ht : f.tag = "regex") (h : Rule.ofTag? f.tag = some .regex)
    (hc : f.children = [a, b])
  | miscounted (ht : f.tag = "ref" ∨ f.tag = "regex")
    (h : Rule.ofTag? f.tag = some .reference ∨ Rule.ofTag? f.tag = some .regex)
    (hc : f.children.length ≠ 2)

theorem shape (f : Field) : Shape f := by
  rcases h : Rule.ofTag? f.tag with _ | r
  · exact .unknown h
  rcases hs : scalar? f.tag f.text r with _ | x
  · have hcount : (∃ a b, f.children = [a, b]) ∨ f.children.length ≠ 2 := by
      rw [← List.length_eq_two]
      exact em _
    rcases (scalar?_eq_none_iff (Rule.ofTag?_eq_some_iff.1 h)).1 hs with
      ⟨ht, rfl⟩ | ⟨ht, rfl⟩ | ⟨ht, rfl⟩ | ⟨ht, rfl⟩
    · exact .document ht h
    · exact .array ht h
    · rcases hcount with ⟨a, b, hc⟩ | hc
      · exact .reference a b ht h hc
      · exact .miscounted (.inl ht) (.inl h) hc
    · rcases hcount with ⟨a, b, hc⟩ | hc
      · exact .regex a b ht h hc
      · exact .miscounted (.inr ht) (.inr h) hc
  · exact .scalar r x h hs

variable {limits : Limits} {n : Nat} {f : Field}

theorem value_unknown (h : Rule.ofTag? f.tag = none) :
    value limits n f = .error (.unsupportedTag f.tag) := by
  obtain ⟨tag, name, text, cs⟩ := f
  simp only [Field.tag] at h ⊢
  rw [value.eq_def]
  simp only [h]

theorem value_scalar {r : Rule} {x : Except Error Value} (h : Rule.ofTag? f.tag = some r)
    (hx : scalar? f.tag f.text r = some x) : value limits n f = x := by
  obtain ⟨tag, name, text, cs⟩ := f
  simp only [Field.tag, Field.text] at h hx
  rw [value.eq_def]
  cases r <;> simp only [scalar?, Option.some.injEq, reduceCtorEq] at hx <;> subst hx <;>
    simp only [h]
  · rcases binary text with e | b <;> rfl
  · rcases date tag text with e | t <;> rfl
  · rcases integer tag text with e | m <;> rfl
  · rcases number tag text with e | x <;> rfl
  · rcases ObjectId.read (text.getD "") with e | o <;> rfl

theorem value_document (h : Rule.ofTag? f.tag = some .document) :
    value limits n f = (document limits n f.tag f.children).map .document := by
  obtain ⟨tag, name, text, cs⟩ := f
  simp only [Field.tag, Field.children] at h ⊢
  rw [value.eq_def]
  simp only [h, document]
  rcases enter limits n cs with e | k <;> rfl

theorem value_array (h : Rule.ofTag? f.tag = some .array) :
    value limits n f = (do
      let d ← document limits n f.tag f.children
      return .array (← Dense.ofPairs limits.maxArrayLength d.items)) := by
  obtain ⟨tag, name, text, cs⟩ := f
  simp only [Field.tag, Field.children] at h ⊢
  rw [value.eq_def]
  simp only [h, document]
  rcases enter limits n cs with e | k <;> rfl

theorem value_reference {a b : Field} (h : Rule.ofTag? f.tag = some .reference)
    (hc : f.children = [a, b]) :
    value limits n f = (do
      let next ← descend limits n
      let collection ← asString .collectionNotAString (← value limits next a)
      return .reference collection (← value limits next b)) := by
  obtain ⟨tag, name, text, cs⟩ := f
  simp only [Field.tag, Field.children] at h hc
  subst hc
  rw [value.eq_def]
  simp only [h]

theorem value_regex {a b : Field} (h : Rule.ofTag? f.tag = some .regex)
    (hc : f.children = [a, b]) :
    value limits n f = (do
      let next ← descend limits n
      let pattern ← asString .patternNotAString (← value limits next a)
      return .regex ⟨pattern, ← options b⟩) := by
  obtain ⟨tag, name, text, cs⟩ := f
  simp only [Field.tag, Field.children] at h hc
  subst hc
  rw [value.eq_def]
  simp only [h]

theorem value_not_two
    (h : Rule.ofTag? f.tag = some .reference ∨ Rule.ofTag? f.tag = some .regex)
    (hc : f.children.length ≠ 2) :
    value limits n f = .error (.malformedInput (.childCount f.tag f.children.length)) := by
  obtain ⟨tag, name, text, cs⟩ := f
  simp only [Field.tag, Field.children] at h hc ⊢
  rw [value.eq_def]
  rcases h with h | h <;> simp only [h] <;> split
  · simp at hc
  · rfl
  · simp at hc
  · rfl

theorem descend_eq_ok_iff {k : Nat} :
    descend limits n = .ok k ↔ n + 1 ≤ limits.maxDepth ∧ k = n + 1 := by
  unfold descend
  split_ifs with h <;> simp [h, eq_comm]

theorem asString_eq_ok_iff {fault : Kind → ShapeFault} {v : Value} {s : String} :
    asString fault v = .ok s ↔ v = .string s := by
  cases v <;> simp [asString]

theorem options_eq_ok_iff {o : RegexOptions} :
    options f = .ok o ↔ f.tag = "options" ∧ o = .ofLetters (f.text.getD "") := by
  have htag : Rule.ofTag? f.tag = some .options ↔ f.tag = "options" := by
    rw [Rule.ofTag?_eq_some_iff]
    simp [Rule.table]
  unfold options
  split
  · rename_i h
    rw [h] at htag
    simp [← htag]
  · rename_i h
    simp [htag.1 h, eq_comm]
  · rename_i r hr h
    rw [h] at htag
    simp only [reduceCtorEq, false_iff, ← htag, Option.some.injEq, not_and]
    exact fun hro => absurd hro hr

theorem kind_scalar {tag : String} {text : Option String} {r : Rule} {v : Value}
    (h : scalar? tag text r = some (.ok v)) : v.kind = r.kind := by
  cases r <;>
    simp only [scalar?, Option.some.injEq, Except.ok.injEq, map_eq_ok_iff, reduceCtorEq] at h
  case binary | date | integer | number | objectId =>
    obtain ⟨_, -, rfl⟩ := h
    rfl
  all_goals
    subst h
    rfl

/-- What an element becomes is of the kind of its rule. -/
theorem kind_value {v : Value} (h : value limits n f = .ok v) :
    ∃ r, Rule.ofTag? f.tag = some r ∧ v.kind = r.kind := by
  cases shape f with
  | unknown hr =>
    rw [value_unknown hr] at h
    cases h
  | scalar r x hr hx =>
    rw [value_scalar hr hx] at h
    subst h
    exact ⟨r, hr, kind_scalar hx⟩
  | document _ hr =>
    rw [value_document hr, map_eq_ok_iff] at h
    obtain ⟨d, -, rfl⟩ := h
    exact ⟨_, hr, rfl⟩
  | array _ hr =>
    simp only [value_array hr, bind_eq_ok_iff] at h
    obtain ⟨d, -, vs, -, hv⟩ := h
    cases hv
    exact ⟨_, hr, rfl⟩
  | reference a b _ hr hc =>
    simp only [value_reference hr hc, bind_eq_ok_iff] at h
    obtain ⟨k, -, _, -, s, -, id, -, hv⟩ := h
    cases hv
    exact ⟨_, hr, rfl⟩
  | regex a b _ hr hc =>
    simp only [value_regex hr hc, bind_eq_ok_iff] at h
    obtain ⟨k, -, _, -, s, -, o, -, hv⟩ := h
    cases hv
    exact ⟨_, hr, rfl⟩
  | miscounted _ hr hc =>
    rw [value_not_two hr hc] at h
    cases h

/-- Names and values, written one after another. -/
theorem members_eq_ok_iff {parent : String} {d d' : Document} {fs : List Field} :
    members limits n parent d fs = .ok d' ↔
      ∃ ps, List.Forall₂ (fun f p => f.name = some p.1 ∧ value limits n f = .ok p.2) fs ps
        ∧ d' = d.extend ps := by
  induction fs generalizing d with
  | nil =>
    rw [members, Except.ok.injEq]
    refine ⟨?_, ?_⟩
    · rintro rfl
      exact ⟨[], .nil, rfl⟩
    · rintro ⟨_, ⟨⟩, rfl⟩
      rfl
  | cons f fs ih =>
    rw [members]
    rcases hn : f.name with _ | name <;> simp only []
    · refine ⟨nofun, ?_⟩
      rintro ⟨_, hps, -⟩
      obtain ⟨p, ps, ⟨hn', -⟩, -, -⟩ := List.forall₂_cons_left_iff.1 hps
      rw [hn] at hn'
      cases hn'
    · rw [bind_eq_ok_iff]
      refine ⟨?_, ?_⟩
      · rintro ⟨v, hv, h⟩
        obtain ⟨ps, hps, rfl⟩ := ih.1 h
        exact ⟨(name, v) :: ps, .cons ⟨hn, hv⟩ hps, rfl⟩
      · rintro ⟨_, hps, rfl⟩
        obtain ⟨p, ps, ⟨hn', hv⟩, hrest, rfl⟩ := List.forall₂_cons_left_iff.1 hps
        rw [hn] at hn'
        obtain rfl := Option.some.inj hn'
        exact ⟨p.2, hv, ih.2 ⟨ps, hrest, rfl⟩⟩

theorem document_eq_ok_iff {tag : String} {cs : List Field} {d : Document} :
    document limits n tag cs = .ok d ↔ (cs ≠ [] → n + 1 ≤ limits.maxDepth)
      ∧ ∃ ps, List.Forall₂ (fun f p => f.name = some p.1 ∧ value limits (n + 1) f = .ok p.2) cs ps
        ∧ d = .ofPairs ps := by
  unfold document enter
  rw [bind_eq_ok_iff]
  rcases cs with _ | ⟨c, cs⟩
  · have hm : members limits (n + 1) tag .empty [] = .ok d ↔ _ := members_eq_ok_iff
    simp only [members] at hm ⊢
    simp [hm, OrderedMap.ofPairs]
  · simp only [List.isEmpty_cons, Bool.false_eq_true, ↓reduceIte, descend_eq_ok_iff, ne_eq,
      reduceCtorEq, not_false_eq_true, forall_const]
    refine ⟨?_, ?_⟩
    · rintro ⟨_, ⟨hn, rfl⟩, hm⟩
      exact ⟨hn, members_eq_ok_iff.1 hm⟩
    · exact fun ⟨hn, hm⟩ => ⟨_, ⟨hn, rfl⟩, members_eq_ok_iff.2 hm⟩

namespace Dense

open Numeral.Integer

theorem step_eq_ok_iff {limit : Nat} {items items' : Array Value} {p : String × Value} :
    step limit items p = .ok items' ↔
      ∃ i, IsPosition p.1 i ∧ i < limit ∧ items' = place items i p.2 := by
  unfold step
  simp only [← readIndex?_eq_some_iff]
  split
  · rename_i h
    simp [h]
  · rename_i i h
    simp only [h, Option.some.injEq, exists_eq_left']
    split_ifs with hi <;> simp [hi, eq_comm]

/-- Names are accepted one by one. -/
theorem exists_ofPairs_iff {limit : Nat} {ps : List (String × Value)} :
    (∃ vs, ofPairs limit ps = .ok vs) ↔ ∀ p ∈ ps, ∃ i, IsPosition p.1 i ∧ i < limit := by
  have hfold : ∀ items, (∃ vs, ps.foldlM (step limit) items = .ok vs) ↔
      ∀ p ∈ ps, ∃ i, IsPosition p.1 i ∧ i < limit := by
    induction ps with
    | nil => exact fun items => ⟨fun _ => by simp, fun _ => ⟨items, rfl⟩⟩
    | cons p ps ih =>
      intro items
      simp only [List.foldlM_cons, bind_eq_ok_iff, List.forall_mem_cons, step_eq_ok_iff]
      refine ⟨?_, ?_⟩
      · rintro ⟨vs, _, ⟨i, hp, hi, rfl⟩, h⟩
        exact ⟨⟨i, hp, hi⟩, (ih _).1 ⟨vs, h⟩⟩
      · rintro ⟨⟨i, hp, hi⟩, hps⟩
        obtain ⟨vs, h⟩ := (ih (place items i p.2)).2 hps
        exact ⟨vs, _, ⟨i, hp, hi, rfl⟩, h⟩
  rw [← hfold #[]]
  simp only [ofPairs, map_eq_ok_iff]
  exact ⟨fun ⟨_, items, h, _⟩ => ⟨items, h⟩, fun ⟨items, h⟩ => ⟨_, items, h, rfl⟩⟩

end Dense

end Decode

end TypedDoc

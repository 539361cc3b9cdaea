import TypedDoc.Proofs.Decoding
import TypedDoc.Proofs.PairList

/-!
# The grammar of decoding

Which element trees decoding accepts, said of one element at a time. Decoding goes down from the
start to the children of documents and arrays, to both children of a reference and to the first
child of a regular expression (`Live`). It succeeds exactly if each element that it comes to passes
a check of its own, which looks at its depth, its tag, its name, its text and the tags of its
children, and at nothing else (`decodes_iff`).
-/

namespace TypedDoc.Decode

/-- How an element is kept by the one above it: under its name, at the position in its name, or as
one of two. -/
inductive Slot where
  | member
  | item
  | part

/-- An element where it stands, with its level below the start. -/
structure Spot where
  level : Nat
  slot : Slot
  element : Field

/-- The children that decoding an element goes down to. -/
@[mk_iff]
inductive Spot.Holds (a : Spot) : Spot → Prop
  | member {f : Field} : a.element.tag = "doc" → f ∈ a.element.children →
    Holds a ⟨a.level + 1, .member, f⟩
  | item {f : Field} : a.element.tag = "array" → f ∈ a.element.children →
    Holds a ⟨a.level + 1, .item, f⟩
  | part {f : Field} : a.element.tag = "ref" → a.element.children.length = 2 →
    f ∈ a.element.children → Holds a ⟨a.level + 1, .part, f⟩
  | pattern {f g : Field} : a.element.tag = "regex" → a.element.children = [f, g] →
    Holds a ⟨a.level + 1, .part, f⟩

/-- The elements that decoding the children of `node` comes to. -/
inductive Live (node : Field) : Spot → Prop
  | child {f : Field} : f ∈ node.children → Live node ⟨1, .member, f⟩
  | held {a b : Spot} : Live node a → a.Holds b → Live node b

def Slot.Admits (limits : Limits) (name : Option String) : Slot → Prop
  | member => ∃ s, name = some s
  | item => ∃ s i, name = some s ∧ Numeral.Integer.IsPosition s i ∧ i < limits.maxArrayLength
  | part => True

/-- The text of the elements that are read from it; only a binary one can do without. -/
@[mk_iff]
structure AdmitsText (tag : String) (text : Option String) : Prop where
  binary : tag = "binary" → ∀ s, text = some s → ∃ b, Binary.read s = .ok b
  integer : tag = "int" →
    ∃ s m, text = some s ∧ Numeral.Integer.read (Text.trimChars s.toList) = .ok m
  number : tag = "number" →
    ∃ s x, text = some s ∧ Numeral.Decimal.read (Text.trimChars s.toList) = .ok x
  date : tag = "date" →
    ∃ s x t, text = some s ∧ Numeral.Decimal.read (Text.trimChars s.toList) = .ok x
      ∧ x.isFinite = true ∧ Timestamp.ofMillis? x.round = some t
  objectId : tag = "oid" → ∃ s o, text = some s ∧ ObjectId.decode s = .ok o

/-- The two children of a reference or a regular expression. -/
@[mk_iff]
structure AdmitsChildren (tag : String) (children : List Field) : Prop where
  reference : tag = "ref" →
    ∃ a b, children = [a, b] ∧ (a.tag = "string" ∨ a.tag = "ns" ∨ a.tag = "pattern")
  regex : tag = "regex" →
    ∃ a b, children = [a, b] ∧ (a.tag = "string" ∨ a.tag = "ns" ∨ a.tag = "pattern")
      ∧ b.tag = "options"

theorem AdmitsChildren.length_eq_two {tag : String} {children : List Field}
    (h : AdmitsChildren tag children) (ht : tag = "ref" ∨ tag = "regex") :
    children.length = 2 := by
  rcases ht with ht | ht
  · obtain ⟨a, b, hab, -⟩ := h.reference ht
    exact List.length_eq_two.2 ⟨a, b, hab⟩
  · obtain ⟨a, b, hab, -⟩ := h.regex ht
    exact List.length_eq_two.2 ⟨a, b, hab⟩

/-- What an element has to pass where it stands. -/
structure Spot.Passes (limits : Limits) (a : Spot) : Prop where
  level : a.level ≤ limits.maxDepth
  tag : a.element.tag ∈ Rule.table.map (·.1)
  name : a.slot.Admits limits a.element.name
  text : AdmitsText a.element.tag a.element.text
  children : AdmitsChildren a.element.tag a.element.children

/-- An element that its parent can take: its level and its name are right, and it has a value. -/
def Spot.Taken (limits : Limits) (a : Spot) : Prop :=
  a.level ≤ limits.maxDepth ∧ a.slot.Admits limits a.element.name
    ∧ ∃ v, value limits a.level a.element = .ok v

variable {limits : Limits}

theorem mem_names_iff {n : Nat} {fs : List Field} {ps : List (String × Value)}
    (h : List.Forall₂ (fun f p => f.name = some p.1 ∧ value limits n f = .ok p.2) fs ps)
    (s : String) : s ∈ ps.map (·.1) ↔ ∃ f ∈ fs, f.name = some s := by
  induction h with
  | nil => simp
  | @cons f p fs ps hfp _ ih =>
    rw [List.map_cons, List.mem_cons, ih]
    simp only [List.mem_cons, exists_eq_or_imp, hfp.1, Option.some.injEq]
    exact or_congr_left eq_comm

/-- Children make a document if each of them can be taken as a member one level further down. -/
theorem exists_document_iff {n : Nat} {tag : String} {cs : List Field} :
    (∃ d, document limits n tag cs = .ok d) ↔
      ∀ f ∈ cs, Spot.Taken limits ⟨n + 1, .member, f⟩ := by
  simp only [document_eq_ok_iff, Spot.Taken, Slot.Admits]
  refine ⟨?_, ?_⟩
  · rintro ⟨_, hn, ps, hps, -⟩ f hf
    obtain ⟨p, hname, hv⟩ := exists_forall₂_iff.1 ⟨ps, hps⟩ f hf
    exact ⟨hn (List.ne_nil_of_mem hf), ⟨_, hname⟩, _, hv⟩
  · intro h
    have hpair : ∀ f ∈ cs, ∃ p : String × Value,
        f.name = some p.1 ∧ value limits (n + 1) f = .ok p.2 := by
      intro f hf
      obtain ⟨-, ⟨s, hs⟩, v, hv⟩ := h f hf
      exact ⟨(s, v), hs, hv⟩
    obtain ⟨ps, hps⟩ := exists_forall₂_iff.2 hpair
    refine ⟨_, fun hne => ?_, ps, hps, rfl⟩
    obtain ⟨f, fs, rfl⟩ := List.exists_cons_of_ne_nil hne
    exact (h f List.mem_cons_self).1

theorem exists_members_iff {n : Nat} {f : Field} (hr : Rule.ofTag? f.tag = some .document) :
    (∃ v, value limits n f = .ok v) ↔
      ∀ g ∈ f.children, Spot.Taken limits ⟨n + 1, .member, g⟩ := by
  have hdoc : (∃ d, document limits n f.tag f.children = .ok d) ↔ _ := exists_document_iff
  simp only [value_document hr, map_eq_ok_iff]
  exact ⟨fun ⟨_, d, hd, _⟩ => hdoc.1 ⟨d, hd⟩, fun h =>
    let ⟨d, hd⟩ := hdoc.2 h
    ⟨_, d, hd, rfl⟩⟩

/-- The document keeps each name once, but it keeps them all. -/
theorem mem_keys_iff {n : Nat} {cs : List Field} {ps : List (String × Value)}
    (hps : List.Forall₂ (fun f p => f.name = some p.1 ∧ value limits n f = .ok p.2) cs ps)
    (s : String) :
    s ∈ (OrderedMap.ofPairs ps).items.map (·.1) ↔ ∃ g ∈ cs, g.name = some s := by
  rw [OrderedMap.items_ofPairs, PairList.mem_keys_putAll, ← mem_names_iff hps]
  simp

theorem exists_dense_iff {n : Nat} {cs : List Field} {ps : List (String × Value)}
    (hps : List.Forall₂ (fun f p => f.name = some p.1 ∧ value limits n f = .ok p.2) cs ps) :
    (∃ vs, Dense.ofPairs limits.maxArrayLength (OrderedMap.ofPairs ps).items = .ok vs) ↔
      ∀ g ∈ cs, ∀ s, g.name = some s →
        ∃ i, Numeral.Integer.IsPosition s i ∧ i < limits.maxArrayLength := by
  rw [Dense.exists_ofPairs_iff]
  refine ⟨fun h g hg s hs => ?_, fun h p hp => ?_⟩
  · obtain ⟨p, hp, rfl⟩ := List.mem_map.1 ((mem_keys_iff hps s).2 ⟨g, hg, hs⟩)
    exact h p hp
  · obtain ⟨g, hg, hs⟩ := (mem_keys_iff hps p.1).1 (List.mem_map_of_mem hp)
    exact h g hg p.1 hs

theorem exists_array_iff {n : Nat} {f : Field} (hr : Rule.ofTag? f.tag = some .array) :
    (∃ v, value limits n f = .ok v) ↔
      ∀ g ∈ f.children, Spot.Taken limits ⟨n + 1, .item, g⟩ := by
  rw [value_array hr]
  simp only [bind_eq_ok_iff]
  refine ⟨?_, fun h => ?_⟩
  · rintro ⟨_, d, hd, vs, hvs, -⟩ g hg
    obtain ⟨hl, ⟨s, hs⟩, hv⟩ := exists_document_iff.1 ⟨d, hd⟩ g hg
    obtain ⟨-, ps, hps, rfl⟩ := document_eq_ok_iff.1 hd
    obtain ⟨i, hi⟩ := (exists_dense_iff hps).1 ⟨vs, hvs⟩ g hg s hs
    exact ⟨hl, ⟨s, i, hs, hi⟩, hv⟩
  · have hdoc : ∃ d, document limits n f.tag f.children = .ok d := by
      refine exists_document_iff.2 fun g hg => ?_
      obtain ⟨hl, ⟨s, i, hs, -⟩, hv⟩ := h g hg
      exact ⟨hl, ⟨s, hs⟩, hv⟩
    obtain ⟨d, hd⟩ := hdoc
    obtain ⟨-, ps, hps, rfl⟩ := document_eq_ok_iff.1 hd
    obtain ⟨vs, hvs⟩ := (exists_dense_iff hps).2 fun g hg s hs => by
      obtain ⟨-, ⟨s', i, hs', hi⟩, -⟩ := h g hg
      rw [hs] at hs'
      obtain rfl := Option.some.inj hs'
      exact ⟨i, hi⟩
    exact ⟨_, _, hd, vs, hvs, rfl⟩

theorem value_string_iff {n : Nat} {f : Field} {v : Value} (h : value limits n f = .ok v) :
    (∃ s, v = .string s) ↔ f.tag = "string" ∨ f.tag = "ns" ∨ f.tag = "pattern" := by
  have htext : Rule.ofTag? f.tag = some .text ↔
      f.tag = "string" ∨ f.tag = "ns" ∨ f.tag = "pattern" := by
    rw [Rule.ofTag?_eq_some_iff]
    simp [Rule.table]
  obtain ⟨r, hr, hk⟩ := kind_value h
  rw [← htext, hr, Option.some.injEq]
  refine ⟨?_, ?_⟩
  · rintro ⟨s, rfl⟩
    cases r <;> simp_all [Value.kind, Rule.kind]
  · rintro rfl
    cases v <;> simp_all [Value.kind, Rule.kind]

theorem exists_reference_iff {n : Nat} {f a b : Field} (hr : Rule.ofTag? f.tag = some .reference)
    (hc : f.children = [a, b]) :
    (∃ v, value limits n f = .ok v) ↔
      (a.tag = "string" ∨ a.tag = "ns" ∨ a.tag = "pattern")
        ∧ Spot.Taken limits ⟨n + 1, .part, a⟩ ∧ Spot.Taken limits ⟨n + 1, .part, b⟩ := by
  simp only [value_reference hr hc, bind_eq_ok_iff, descend_eq_ok_iff, asString_eq_ok_iff,
    Spot.Taken, Slot.Admits, true_and]
  refine ⟨?_, ?_⟩
  · rintro ⟨_, _, ⟨hn, rfl⟩, _, ha, s, rfl, id, hb, -⟩
    exact ⟨(value_string_iff ha).1 ⟨s, rfl⟩, ⟨hn, _, ha⟩, hn, _, hb⟩
  · rintro ⟨ht, ⟨hn, v, ha⟩, -, id, hb⟩
    obtain ⟨s, rfl⟩ := (value_string_iff ha).2 ht
    exact ⟨_, _, ⟨hn, rfl⟩, _, ha, s, rfl, id, hb, rfl⟩

theorem exists_regex_iff {n : Nat} {f a b : Field} (hr : Rule.ofTag? f.tag = some .regex)
    (hc : f.children = [a, b]) :
    (∃ v, value limits n f = .ok v) ↔
      (a.tag = "string" ∨ a.tag = "ns" ∨ a.tag = "pattern") ∧ b.tag = "options"
        ∧ Spot.Taken limits ⟨n + 1, .part, a⟩ := by
  simp only [value_regex hr hc, bind_eq_ok_iff, descend_eq_ok_iff, asString_eq_ok_iff,
    options_eq_ok_iff, Spot.Taken, Slot.Admits, true_and]
  refine ⟨?_, ?_⟩
  · rintro ⟨_, _, ⟨hn, rfl⟩, _, ha, s, rfl, o, ⟨hb, -⟩, -⟩
    exact ⟨(value_string_iff ha).1 ⟨s, rfl⟩, hb, hn, _, ha⟩
  · rintro ⟨ht, hb, hn, v, ha⟩
    obtain ⟨s, rfl⟩ := (value_string_iff ha).2 ht
    exact ⟨_, _, ⟨hn, rfl⟩, _, ha, s, rfl, _, ⟨hb, rfl⟩, rfl⟩

section Text

variable {tag : String} {text : Option String}

theorem exists_binary_iff : (∃ b, binary text = .ok b) ↔
    ∀ s, text = some s → ∃ b, Binary.read s = .ok b := by
  rcases text with _ | s <;> simp [binary]

theorem exists_integer_iff : (∃ m, integer tag text = .ok m) ↔
    ∃ s m, text = some s ∧ Numeral.Integer.read (Text.trimChars s.toList) = .ok m := by
  rcases text with _ | s <;> simp [integer, mapError_eq_ok_iff]

theorem exists_number_iff : (∃ x, number tag text = .ok x) ↔
    ∃ s x, text = some s ∧ Numeral.Decimal.read (Text.trimChars s.toList) = .ok x := by
  rcases text with _ | s <;> simp [number, decimal, mapError_eq_ok_iff]

theorem date_eq_ok_iff {t : Timestamp} : date tag text = .ok t ↔
    ∃ s x, text = some s ∧ Numeral.Decimal.read (Text.trimChars s.toList) = .ok x
      ∧ x.isFinite = true ∧ Timestamp.ofMillis? x.round = some t := by
  rcases text with _ | s
  · simp [date]
  · have hread : ∀ x, decimal tag s = .ok x ↔
        Numeral.Decimal.read (Text.trimChars s.toList) = .ok x := fun x => mapError_eq_ok_iff
    simp only [date_some, bind_eq_ok_iff, hread]
    refine ⟨?_, ?_⟩
    · rintro ⟨x, hx, h⟩
      refine ⟨s, x, rfl, hx, ?_⟩
      rcases hf : x.isFinite <;> rcases ht : Timestamp.ofMillis? x.round with _ | t' <;>
        rw [hf, ht] at h <;> cases h
      exact ⟨rfl, rfl⟩
    · rintro ⟨_, x, ⟨⟩, hx, hf, ht⟩
      refine ⟨x, hx, ?_⟩
      rw [hf, ht]
      rfl

theorem exists_date_iff : (∃ t, date tag text = .ok t) ↔
    ∃ s x t, text = some s ∧ Numeral.Decimal.read (Text.trimChars s.toList) = .ok x
      ∧ x.isFinite = true ∧ Timestamp.ofMillis? x.round = some t := by
  simp only [date_eq_ok_iff]
  exact ⟨fun ⟨t, s, x, h⟩ => ⟨s, x, t, h⟩, fun ⟨s, x, t, h⟩ => ⟨t, s, x, h⟩⟩

theorem exists_objectId_iff : (∃ o, ObjectId.read (text.getD "") = .ok o) ↔
    ∃ s o, text = some s ∧ ObjectId.decode s = .ok o := by
  rcases text with _ | s
  · have hempty : ObjectId.decode "" = .error (.hexLength 0) := by decide
    simp [ObjectId.read, hempty, Except.mapError]
  · simp [ObjectId.read, mapError_eq_ok_iff]

theorem exists_scalar_iff {r : Rule} {x : Except Error Value} (hr : (tag, r) ∈ Rule.table)
    (hx : scalar? tag text r = some x) : (∃ v, x = .ok v) ↔ AdmitsText tag text := by
  simp only [Rule.table, List.mem_cons, Prod.mk.injEq, List.not_mem_nil, or_false] at hr
  rcases hr with ⟨rfl, rfl⟩ | ⟨rfl, rfl⟩ | ⟨rfl, rfl⟩ | ⟨rfl, rfl⟩ | ⟨rfl, rfl⟩ | ⟨rfl, rfl⟩ |
    ⟨rfl, rfl⟩ | ⟨rfl, rfl⟩ | ⟨rfl, rfl⟩ | ⟨rfl, rfl⟩ | ⟨rfl, rfl⟩ | ⟨rfl, rfl⟩ | ⟨rfl, rfl⟩ |
    ⟨rfl, rfl⟩ | ⟨rfl, rfl⟩ | ⟨rfl, rfl⟩ <;>
    simp only [scalar?, Option.some.injEq, reduceCtorEq] at hx <;> subst hx <;>
    simp [admitsText_iff, map_eq_ok_iff, exists_binary_iff, exists_integer_iff,
      exists_number_iff, exists_date_iff, exists_objectId_iff]

end Text

theorem ne_of_scalar? {tag : String} {text : Option String} {r : Rule} {x : Except Error Value}
    (hr : (tag, r) ∈ Rule.table) (hx : scalar? tag text r = some x) :
    tag ≠ "doc" ∧ tag ≠ "array" ∧ tag ≠ "ref" ∧ tag ≠ "regex" := by
  refine ⟨?_, ?_, ?_, ?_⟩ <;> rintro rfl <;> simp [Rule.table] at hr <;> subst hr <;> cases hx

/-- Documents and arrays hold all their children. -/
theorem forall_holds_iff {a : Spot} {s : Slot} {P : Spot → Prop}
    (hs : (a.element.tag = "doc" ∧ s = .member) ∨ (a.element.tag = "array" ∧ s = .item)) :
    (∀ b, a.Holds b → P b) ↔ ∀ g ∈ a.element.children, P ⟨a.level + 1, s, g⟩ := by
  have hholds : ∀ b, a.Holds b ↔ ∃ g ∈ a.element.children, ⟨a.level + 1, s, g⟩ = b := by
    rcases hs with ⟨ht, rfl⟩ | ⟨ht, rfl⟩ <;> simp [Spot.holds_iff, ht, eq_comm]
  simp only [hholds, forall_exists_index, and_imp, forall_apply_eq_imp_iff₂]

/-- A tag whose rule goes down to the children is known, and asks nothing of the text. -/
theorem admits_of_container {tag : String} (text : Option String)
    (ht : tag = "doc" ∨ tag = "array" ∨ tag = "ref" ∨ tag = "regex") :
    tag ∈ Rule.table.map (·.1) ∧ AdmitsText tag text := by
  rcases ht with rfl | rfl | rfl | rfl <;>
    exact ⟨by decide, by simp [admitsText_iff]⟩

/-- An element has a value if it passes what does not depend on where it stands, and its parent's
turn comes to the children that it holds. -/
theorem exists_value_iff (a : Spot) :
    (∃ v, value limits a.level a.element = .ok v) ↔
      a.element.tag ∈ Rule.table.map (·.1) ∧ AdmitsText a.element.tag a.element.text
        ∧ AdmitsChildren a.element.tag a.element.children ∧ ∀ b, a.Holds b → b.Taken limits := by
  cases shape a.element with
  | unknown hr =>
    refine iff_of_false ?_ fun h => Rule.ofTag?_eq_none_iff.1 hr h.1
    rw [value_unknown hr]
    exact nofun
  | scalar r x hr hs =>
    have hmem := Rule.ofTag?_eq_some_iff.1 hr
    -- a tag whose rule reads nothing but the text asks nothing of the children
    obtain ⟨hdoc, harray, href, hregex⟩ := ne_of_scalar? hmem hs
    have htag : a.element.tag ∈ Rule.table.map (·.1) := List.mem_map_of_mem hmem
    have hch : AdmitsChildren a.element.tag a.element.children := by
      simp [admitsChildren_iff, href, hregex]
    have hnone : ∀ b, ¬ a.Holds b := by simp [Spot.holds_iff, hdoc, harray, href, hregex]
    rw [value_scalar hr hs, exists_scalar_iff hmem hs, and_iff_right htag, and_iff_left]
    exact ⟨hch, fun b hb => absurd hb (hnone b)⟩
  | document ht hr =>
    obtain ⟨htag, htext⟩ := admits_of_container a.element.text (.inl ht)
    rw [and_iff_right htag, and_iff_right htext, exists_members_iff hr,
      forall_holds_iff (.inl ⟨ht, rfl⟩)]
    simp [admitsChildren_iff, ht]
  | array ht hr =>
    obtain ⟨htag, htext⟩ := admits_of_container a.element.text (.inr (.inl ht))
    rw [and_iff_right htag, and_iff_right htext, exists_array_iff hr,
      forall_holds_iff (.inr ⟨ht, rfl⟩)]
    simp [admitsChildren_iff, ht]
  | reference c d ht hr hc =>
    obtain ⟨htag, htext⟩ := admits_of_container a.element.text (.inr (.inr (.inl ht)))
    rw [and_iff_right htag, and_iff_right htext, exists_reference_iff hr hc]
    simp [admitsChildren_iff, Spot.holds_iff, ht, hc]
  | regex c d ht hr hc =>
    obtain ⟨htag, htext⟩ := admits_of_container a.element.text (.inr (.inr (.inr ht)))
    rw [and_iff_right htag, and_iff_right htext, exists_regex_iff hr hc]
    simp [admitsChildren_iff, Spot.holds_iff, ht, hc, and_assoc]
  | miscounted ht hr hc =>
    refine iff_of_false ?_ fun h => hc (h.2.2.1.length_eq_two ht)
    rw [value_not_two hr hc]
    exact nofun

theorem Spot.taken_iff (a : Spot) :
    a.Taken limits ↔ a.Passes limits ∧ ∀ b, a.Holds b → b.Taken limits := by
  rw [Taken, exists_value_iff]
  refine ⟨fun ⟨hl, hn, ht, hx, hc, hb⟩ => ⟨⟨hl, ht, hn, hx, hc⟩, hb⟩, ?_⟩
  rintro ⟨h, hb⟩
  exact ⟨h.level, h.name, h.tag, h.text, h.children, hb⟩

theorem Spot.Holds.mem_children {a b : Spot} (h : a.Holds b) :
    b.element ∈ a.element.children := by
  cases h with
  | member _ hf => exact hf
  | item _ hf => exact hf
  | part _ _ hf => exact hf
  | pattern _ hc => exact hc ▸ List.mem_cons_self

/-- Down from an element that decoding comes to, induction on the element. -/
theorem Live.taken {node : Field} (h : ∀ a, Live node a → a.Passes limits) :
    ∀ f n s, Live node ⟨n, s, f⟩ → Spot.Taken limits ⟨n, s, f⟩ := by
  intro f
  induction f using Field.induction with
  | h f ih =>
    intro n s hlive
    rw [Spot.taken_iff]
    exact ⟨h _ hlive, fun b hb => ih b.element hb.mem_children b.level b.slot (hlive.held hb)⟩

/-- Decoding the children of an element succeeds exactly if every element that it can come to
passes its check. -/
theorem decodes_iff (limits : Limits) (node : Field) :
    (∃ d, children limits node = .ok d) ↔ ∀ a, Live node a → a.Passes limits := by
  rw [children, exists_document_iff, Nat.zero_add]
  refine ⟨fun h a hlive => ?_, fun h f hf => Live.taken h f 1 .member (.child hf)⟩
  have htaken : a.Taken limits := by
    induction hlive with
    | child hf => exact h _ hf
    | held _ hb ih => exact ((Spot.taken_iff _).1 ih).2 _ hb
  exact ((Spot.taken_iff a).1 htaken).1

end TypedDoc.Decode

import TypedDoc.Proofs.Grammar

/-!
# What errors blame

An error of decoding is about one element, which decoding comes to, and it is right about it: the
element lies too deep, or its name, its tag, its text or its children are not what they have to be
(`Spot.Fault`). The error that comes out at the top is the one that arose at that element, with the
tag, the text or the name that stands there, so following the error down through the rules leads
to the element (`blames_value`). An element with a fault does not pass its check
(`Spot.Fault.not_passes`).
-/

namespace TypedDoc.Decode

open Numeral.Integer (IsPosition)

/-! ## The steps in which errors arise -/

theorem decimal_eq_error {tag text : String} {e : Error} (h : decimal tag text = .error e) :
    ∃ reason, e = .malformedValue tag text reason := by
  obtain ⟨fault, -, rfl⟩ := mapError_eq_error_iff.1 h
  exact ⟨_, rfl⟩

theorem date_eq_error {tag : String} {text : Option String} {e : Error}
    (h : date tag text = .error e) : ∃ reason, e = .malformedValue tag (text.getD "") reason := by
  rcases text with _ | s
  · exact ⟨_, (Except.error.inj h).symm⟩
  · rw [date_some] at h
    rcases bind_eq_error_iff.1 h with h | ⟨x, -, h⟩
    · exact decimal_eq_error h
    · split_ifs at h
      · exact ⟨_, (Except.error.inj h).symm⟩
      · simp only [] at h
        split at h
        · cases h
        · exact ⟨_, (Except.error.inj h).symm⟩

/-- A rule that reads text names its tag and the text that it cannot read. -/
theorem scalar_eq_error {tag : String} {text : Option String} {r : Rule} {e : Error}
    (hr : (tag, r) ∈ Rule.table) (h : scalar? tag text r = some (.error e)) :
    ∃ reason, e = .malformedValue tag (text.getD "") reason := by
  cases r <;> simp only [scalar?, Option.some.injEq, reduceCtorEq, map_eq_error_iff] at h
  case binary =>
    obtain rfl : tag = "binary" := by simpa [Rule.table] using hr
    rcases text with _ | s
    · cases h
    · simp only [binary, Binary.read] at h
      split at h
      · cases h
      · exact ⟨_, (Except.error.inj h).symm⟩
  case date => exact date_eq_error h
  case integer =>
    rcases text with _ | s
    · exact ⟨_, (Except.error.inj h).symm⟩
    · obtain ⟨fault, -, rfl⟩ := mapError_eq_error_iff.1 h
      exact ⟨_, rfl⟩
  case number =>
    rcases text with _ | s
    · exact ⟨_, (Except.error.inj h).symm⟩
    · exact decimal_eq_error h
  case objectId =>
    obtain rfl : tag = "oid" := by simpa [Rule.table] using hr
    obtain ⟨fault, -, rfl⟩ := mapError_eq_error_iff.1 h
    exact ⟨_, rfl⟩

theorem Dense.ofPairs_eq_error {limit : Nat} {ps : List (String × Value)} {e : Error}
    (h : Dense.ofPairs limit ps = .error e) : ∃ p ∈ ps,
      ((∀ i, ¬ IsPosition p.1 i) ∧ e = .malformedValue "array" p.1 .notAnIndex)
        ∨ ∃ i, IsPosition p.1 i ∧ limit ≤ i
          ∧ e = .malformedValue "array" p.1 (.indexLimit limit) := by
  rw [Dense.ofPairs, map_eq_error_iff] at h
  obtain ⟨items, p, hp, hstep⟩ := exists_of_foldlM_eq_error h
  refine ⟨p, hp, ?_⟩
  unfold Dense.step at hstep
  simp only [← Numeral.Integer.readIndex?_eq_some_iff]
  split at hstep
  · rename_i hnone
    exact .inl ⟨by simp [hnone], (Except.error.inj hstep).symm⟩
  · rename_i i hi
    split_ifs at hstep with hlt
    exact .inr ⟨i, hi, Nat.not_lt.1 hlt, (Except.error.inj hstep).symm⟩

theorem asString_eq_error {fault : Kind → ShapeFault} {v : Value} {e : Error}
    (h : asString fault v = .error e) :
    (∀ s, v ≠ .string s) ∧ e = .malformedInput (fault v.kind) := by
  cases v <;> cases h <;> exact ⟨by simp, rfl⟩

theorem options_eq_error {f : Field} {e : Error} (h : options f = .error e) :
    (f.tag ∉ Rule.table.map (·.1) ∧ e = .unsupportedTag f.tag)
      ∨ f.tag ∈ Rule.table.map (·.1) ∧ f.tag ≠ "options"
        ∧ e = .malformedInput (.notOptions f.tag) := by
  unfold options at h
  split at h
  · rename_i hnone
    exact .inl ⟨Rule.ofTag?_eq_none_iff.1 hnone, (Except.error.inj h).symm⟩
  · cases h
  · rename_i r hr hsome
    refine .inr ⟨List.mem_map_of_mem (Rule.ofTag?_eq_some_iff.1 hsome), ?_,
      (Except.error.inj h).symm⟩
    intro ht
    rw [ht] at hsome
    exact hr (Option.some.inj hsome).symm

variable {limits : Limits} {n : Nat}

theorem descend_eq_error_iff {e : Error} : descend limits n = .error e ↔
    limits.maxDepth < n + 1 ∧ e = .depthLimitExceeded limits.maxDepth := by
  unfold descend
  split_ifs with h
  · simp [Nat.not_lt.2 h]
  · simp [Nat.not_le.1 h, eq_comm]

theorem members_eq_error {parent : String} {d : Document} {fs : List Field} {e : Error}
    (h : members limits n parent d fs = .error e) : ∃ f ∈ fs,
      (f.name = none ∧ e = .malformedInput (.missingName f.tag parent))
        ∨ value limits n f = .error e := by
  induction fs generalizing d with
  | nil => cases h
  | cons f fs ih =>
    rw [members] at h
    rcases hn : f.name with _ | name <;> rw [hn] at h <;> simp only [] at h
    · exact ⟨f, List.mem_cons_self, .inl ⟨hn, (Except.error.inj h).symm⟩⟩
    · rcases bind_eq_error_iff.1 h with hv | ⟨v, -, h⟩
      · exact ⟨f, List.mem_cons_self, .inr hv⟩
      · obtain ⟨g, hg, hcause⟩ := ih h
        exact ⟨g, List.mem_cons_of_mem _ hg, hcause⟩

/-- Children make no document because they lie too deep, or because of one of them. -/
theorem document_eq_error {tag : String} {cs : List Field} {e : Error}
    (h : document limits n tag cs = .error e) : ∃ g ∈ cs,
      (limits.maxDepth < n + 1 ∧ e = .depthLimitExceeded limits.maxDepth)
        ∨ (g.name = none ∧ e = .malformedInput (.missingName g.tag tag))
        ∨ value limits (n + 1) g = .error e := by
  rcases cs with _ | ⟨c, cs⟩
  · cases h
  · rcases bind_eq_error_iff.1 h with hn | ⟨m, hm, hmembers⟩
    · exact ⟨c, List.mem_cons_self, .inl (descend_eq_error_iff.1 hn)⟩
    · obtain ⟨-, rfl⟩ := descend_eq_ok_iff.1 hm
      obtain ⟨g, hg, hcause⟩ := members_eq_error hmembers
      exact ⟨g, hg, .inr hcause⟩

/-- The first child of a reference or a regular expression; what is left to do for the second one
comes after it. -/
theorem pair_eq_error {b : Field} {fault : Kind → ShapeFault}
    {rest : Nat → String → Except Error Value} {e : Error}
    (h : (do
      let next ← descend limits n
      let s ← asString fault (← value limits next b)
      rest next s) = .error e) :
    (limits.maxDepth < n + 1 ∧ e = .depthLimitExceeded limits.maxDepth)
      ∨ value limits (n + 1) b = .error e
      ∨ (∃ v, value limits (n + 1) b = .ok v ∧ (∀ s, v ≠ .string s)
        ∧ e = .malformedInput (fault v.kind))
      ∨ ∃ s, rest (n + 1) s = .error e := by
  rcases bind_eq_error_iff.1 h with h | ⟨m, hm, h⟩
  · exact .inl (descend_eq_error_iff.1 h)
  · obtain ⟨-, rfl⟩ := descend_eq_ok_iff.1 hm
    rcases bind_eq_error_iff.1 h with h | ⟨v, hv, h⟩
    · exact .inr (.inl h)
    · rcases bind_eq_error_iff.1 h with h | ⟨s, -, h⟩
      · exact .inr (.inr (.inl ⟨v, hv, asString_eq_error h⟩))
      · exact .inr (.inr (.inr ⟨s, h⟩))

/-! ## Faults of elements -/

/-- The element right above one that decoding the children of `node` comes to. -/
inductive Above (node : Field) : Field → Spot → Prop
  | child {f : Field} : f ∈ node.children → Above node node ⟨1, .member, f⟩
  | held {a b : Spot} : Live node a → a.Holds b → Above node a.element b

theorem Above.live {node parent : Field} {a : Spot} (h : Above node parent a) : Live node a := by
  cases h with
  | child hf => exact .child hf
  | held ha hb => exact ha.held hb

/-- What is wrong with an element where it stands, and the error that says so. -/
inductive Spot.Fault (limits : Limits) (parent : Field) (a : Spot) : Error → Prop
  | level : limits.maxDepth < a.level → Fault limits parent a (.depthLimitExceeded limits.maxDepth)
  | name : a.slot ≠ .part → a.element.name = none →
    Fault limits parent a (.malformedInput (.missingName a.element.tag parent.tag))
  | position {s : String} : a.slot = .item → a.element.name = some s → (∀ i, ¬ IsPosition s i) →
    Fault limits parent a (.malformedValue "array" s .notAnIndex)
  | length {s : String} {i : Nat} : a.slot = .item → a.element.name = some s → IsPosition s i →
    limits.maxArrayLength ≤ i →
    Fault limits parent a (.malformedValue "array" s (.indexLimit limits.maxArrayLength))
  | tag : a.element.tag ∉ Rule.table.map (·.1) →
    Fault limits parent a (.unsupportedTag a.element.tag)
  | text {reason : TextFault} : a.element.tag ∈ ["binary", "date", "int", "number", "oid"] →
    ¬ AdmitsText a.element.tag a.element.text →
    Fault limits parent a (.malformedValue a.element.tag (a.element.text.getD "") reason)
  | count : a.element.tag = "ref" ∨ a.element.tag = "regex" → a.element.children.length ≠ 2 →
    Fault limits parent a
      (.malformedInput (.childCount a.element.tag a.element.children.length))
  | collection {b c : Field} {v : Value} : a.element.tag = "ref" → a.element.children = [b, c] →
    value limits (a.level + 1) b = .ok v → (∀ s, v ≠ .string s) →
    Fault limits parent a (.malformedInput (.collectionNotAString v.kind))
  | pattern {b c : Field} {v : Value} : a.element.tag = "regex" → a.element.children = [b, c] →
    value limits (a.level + 1) b = .ok v → (∀ s, v ≠ .string s) →
    Fault limits parent a (.malformedInput (.patternNotAString v.kind))
  | unknownOptions {b c : Field} : a.element.tag = "regex" → a.element.children = [b, c] →
    c.tag ∉ Rule.table.map (·.1) → Fault limits parent a (.unsupportedTag c.tag)
  | options {b c : Field} : a.element.tag = "regex" → a.element.children = [b, c] →
    c.tag ∈ Rule.table.map (·.1) → c.tag ≠ "options" →
    Fault limits parent a (.malformedInput (.notOptions c.tag))

/-- Some element that decoding comes to has the fault that an error tells of. -/
def Blames (limits : Limits) (node : Field) (e : Error) : Prop :=
  ∃ parent a, Above node parent a ∧ a.Fault limits parent e

theorem Slot.Admits.exists_name {name : Option String} {s : Slot} (h : s.Admits limits name)
    (hs : s ≠ .part) : ∃ t, name = some t := by
  cases s with
  | member => exact h
  | item =>
    obtain ⟨t, -, ht, -⟩ := h
    exact ⟨t, ht⟩
  | part => exact absurd rfl hs

theorem Spot.Fault.not_passes {parent : Field} {a : Spot} {e : Error}
    (h : a.Fault limits parent e) : ¬ a.Passes limits := by
  intro hp
  cases h with
  | level h => exact absurd hp.level (Nat.not_le.2 h)
  | name hs h =>
    obtain ⟨s, hname⟩ := hp.name.exists_name hs
    rw [h] at hname
    cases hname
  | position hs hn h =>
    have hname := hp.name
    rw [hs] at hname
    obtain ⟨s, i, hs', hi, -⟩ := hname
    rw [hn] at hs'
    obtain rfl := Option.some.inj hs'
    exact h i hi
  | length hs hn hi hle =>
    have hname := hp.name
    rw [hs] at hname
    obtain ⟨s, j, hs', hj, hlt⟩ := hname
    rw [hn] at hs'
    obtain rfl := Option.some.inj hs'
    obtain rfl := hi.unique hj
    omega
  | tag h => exact h hp.tag
  | text _ h => exact h hp.text
  | count ht h => exact h (hp.children.length_eq_two ht)
  | collection ht hc hv h =>
    obtain ⟨b, c, hc', htext⟩ := hp.children.reference ht
    rw [hc] at hc'
    cases hc'
    obtain ⟨s, hs⟩ := (value_string_iff hv).2 htext
    exact h s hs
  | pattern ht hc hv h =>
    obtain ⟨b, c, hc', htext, -⟩ := hp.children.regex ht
    rw [hc] at hc'
    cases hc'
    obtain ⟨s, hs⟩ := (value_string_iff hv).2 htext
    exact h s hs
  | unknownOptions ht hc h =>
    obtain ⟨b, c, hc', -, hopt⟩ := hp.children.regex ht
    rw [hc] at hc'
    cases hc'
    exact h (hopt ▸ by decide)
  | options ht hc _ h =>
    obtain ⟨b, c, hc', -, hopt⟩ := hp.children.regex ht
    rw [hc] at hc'
    cases hc'
    exact h hopt

/-! ## From the error to the element -/

variable {node parent : Field} {e : Error}

theorem blames_scalar {a : Spot} {r : Rule} (ha : Above node parent a)
    (hr : (a.element.tag, r) ∈ Rule.table)
    (h : scalar? a.element.tag a.element.text r = some (.error e)) : Blames limits node e := by
  obtain ⟨reason, rfl⟩ := scalar_eq_error hr h
  have htext : ¬ AdmitsText a.element.tag a.element.text := by
    rw [← exists_scalar_iff hr h]
    rintro ⟨v, ⟨⟩⟩
  refine ⟨parent, a, ha, .text ?_ htext⟩
  by_contra ht
  simp only [List.mem_cons, List.not_mem_nil, or_false, not_or] at ht
  exact htext (by simp [admitsText_iff, ht])

/-- The children of the start, or of an element that keeps its children by their names. -/
theorem blames_document {s : Slot} {cs : List Field} (hs : s ≠ .part)
    (hcs : ∀ g ∈ cs, Above node parent ⟨n + 1, s, g⟩)
    (hvalue : ∀ g ∈ cs, value limits (n + 1) g = .error e → Blames limits node e)
    (h : document limits n parent.tag cs = .error e) : Blames limits node e := by
  obtain ⟨g, hg, ⟨hn, rfl⟩ | ⟨hname, rfl⟩ | hv⟩ := document_eq_error h
  · exact ⟨parent, _, hcs g hg, .level hn⟩
  · exact ⟨parent, _, hcs g hg, .name hs hname⟩
  · exact hvalue g hg hv

/-- The names are read from the document of the children; each is the name of a child. -/
theorem blames_dense {cs : List Field} {d : Document}
    (hcs : ∀ g ∈ cs, Above node parent ⟨n + 1, .item, g⟩)
    (hd : document limits n parent.tag cs = .ok d)
    (h : Dense.ofPairs limits.maxArrayLength d.items = .error e) : Blames limits node e := by
  obtain ⟨-, ps, hps, rfl⟩ := document_eq_ok_iff.1 hd
  obtain ⟨p, hp, hcause⟩ := Dense.ofPairs_eq_error h
  obtain ⟨g, hg, hname⟩ := (mem_keys_iff hps p.1).1 (List.mem_map_of_mem hp)
  rcases hcause with ⟨hnone, rfl⟩ | ⟨i, hi, hle, rfl⟩
  · exact ⟨parent, _, hcs g hg, .position rfl hname hnone⟩
  · exact ⟨parent, _, hcs g hg, .length rfl hname hi hle⟩

/-- Induction on the element: the error arises at the element itself, or at one that it holds. -/
theorem blames_value (limits : Limits) (node : Field) (e : Error) : ∀ f n s parent,
    Above node parent ⟨n, s, f⟩ → value limits n f = .error e → Blames limits node e := by
  intro f
  induction f using Field.induction with
  | h f ih =>
    intro n s parent ha h
    have hheld : ∀ {b : Spot}, Spot.Holds ⟨n, s, f⟩ b → Above node f b := .held ha.live
    cases shape f with
    | unknown hr =>
      rw [value_unknown hr] at h
      obtain rfl := Except.error.inj h
      exact ⟨parent, _, ha, .tag (Rule.ofTag?_eq_none_iff.1 hr)⟩
    | scalar r x hr hx =>
      rw [value_scalar hr hx] at h
      subst h
      exact blames_scalar ha (Rule.ofTag?_eq_some_iff.1 hr) hx
    | document ht hr =>
      rw [value_document hr, map_eq_error_iff] at h
      have hcs : ∀ g ∈ f.children, Above node f ⟨n + 1, .member, g⟩ := fun g hg =>
        hheld (.member ht hg)
      exact blames_document (s := .member) nofun hcs (fun g hg => ih g hg _ _ _ (hcs g hg)) h
    | array ht hr =>
      have hcs : ∀ g ∈ f.children, Above node f ⟨n + 1, .item, g⟩ := fun g hg =>
        hheld (.item ht hg)
      rw [value_array hr] at h
      rcases bind_eq_error_iff.1 h with h | ⟨d, hd, h⟩
      · exact blames_document (s := .item) nofun hcs (fun g hg => ih g hg _ _ _ (hcs g hg)) h
      · rcases bind_eq_error_iff.1 h with h | ⟨_, _, ⟨⟩⟩
        exact blames_dense hcs hd h
    | reference b c ht hr hc =>
      have hcs : ∀ g ∈ f.children, Above node f ⟨n + 1, .part, g⟩ := fun g hg =>
        hheld (.part ht (by simp [hc]) hg)
      have hb : b ∈ f.children := by simp [hc]
      have hc' : c ∈ f.children := by simp [hc]
      rw [value_reference hr hc] at h
      rcases pair_eq_error h with ⟨hn, rfl⟩ | h | ⟨v, hv, hne, rfl⟩ | ⟨_, h⟩
      · exact ⟨f, _, hcs b hb, .level hn⟩
      · exact ih b hb _ _ _ (hcs b hb) h
      · exact ⟨parent, _, ha, .collection ht hc hv hne⟩
      · rcases bind_eq_error_iff.1 h with h | ⟨_, _, ⟨⟩⟩
        exact ih c hc' _ _ _ (hcs c hc') h
    | regex b c ht hr hc =>
      have hb : b ∈ f.children := by simp [hc]
      have habove : Above node f ⟨n + 1, .part, b⟩ := hheld (.pattern ht hc)
      rw [value_regex hr hc] at h
      rcases pair_eq_error h with ⟨hn, rfl⟩ | h | ⟨v, hv, hne, rfl⟩ | ⟨_, h⟩
      · exact ⟨f, _, habove, .level hn⟩
      · exact ih b hb _ _ _ habove h
      · exact ⟨parent, _, ha, .pattern ht hc hv hne⟩
      · rcases bind_eq_error_iff.1 h with h | ⟨_, _, ⟨⟩⟩
        rcases options_eq_error h with ⟨hno, rfl⟩ | ⟨hmem, hne, rfl⟩
        · exact ⟨parent, _, ha, .unknownOptions ht hc hno⟩
        · exact ⟨parent, _, ha, .options ht hc hmem hne⟩
    | miscounted ht hr hc =>
      rw [value_not_two hr hc] at h
      obtain rfl := Except.error.inj h
      exact ⟨parent, _, ha, .count ht hc⟩

theorem blames_children (h : children limits node = .error e) : Blames limits node e :=
  blames_document (s := .member) nofun (fun _ hg => .child hg)
    (fun g hg => blames_value limits node e g _ _ _ (.child hg)) h

/-- Whatever error the decoding of an element's children ends with, it tells the fault of an element
that decoding comes to. So this element fails its check. -/
theorem error_tells_fault (limits : Limits) {node : Field} {e : Error}
    (h : children limits node = .error e) :
    ∃ parent a, Live node a ∧ Above node parent a ∧ a.Fault limits parent e
      ∧ ¬ a.Passes limits := by
  obtain ⟨parent, a, ha, hfault⟩ := blames_children h
  exact ⟨parent, a, ha.live, ha, hfault, hfault.not_passes⟩

/-- An identifier that is no integer, two levels down, in an element that needs no name. -/
theorem error_tells_fault_identifier :
    children ⟨2, 4⟩ (.mk "doc" none none
        [.mk "ref" (some "r") none [.mk "ns" none none [], .mk "int" none (some " 7x") []]]) =
      .error (.malformedValue "int" " 7x" (.integer .digit))
      ∧ ∃ parent a,
        Live (.mk "doc" none none
          [.mk "ref" (some "r") none [.mk "ns" none none [], .mk "int" none (some " 7x") []]]) a
        ∧ Above (.mk "doc" none none
          [.mk "ref" (some "r") none [.mk "ns" none none [], .mk "int" none (some " 7x") []]])
          parent a
        ∧ a.Fault ⟨2, 4⟩ parent (.malformedValue "int" " 7x" (.integer .digit))
        ∧ ¬ a.Passes ⟨2, 4⟩ := by
  have h : children ⟨2, 4⟩ (.mk "doc" none none
      [.mk "ref" (some "r") none [.mk "ns" none none [], .mk "int" none (some " 7x") []]]) =
      .error (.malformedValue "int" " 7x" (.integer .digit)) := rfl
  exact ⟨h, error_tells_fault ⟨2, 4⟩ h⟩

end TypedDoc.Decode

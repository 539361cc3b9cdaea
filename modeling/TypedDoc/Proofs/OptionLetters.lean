import TypedDoc.Json.Export
import TypedDoc.Proofs.Bounds
import TypedDoc.Proofs.Scalars

/-!
# Letters and masks of options

An option has one bit of its own, so a mask either has it or shares no bit with it
(`RegexOptions.and_bit`), and a mask of known bits only is determined by the options that it has
(`RegexOptions.ext_has`). The mask of some letters has exactly the options whose letters occur
(`RegexOptions.has_ofLetters`); what else is in the text, and in which order, does not matter.
-/

namespace TypedDoc

namespace RegexOption

theorem mem_all (o : RegexOption) : o ∈ all := by
  cases o <;> simp [all]

theorem letters_all : all.map letter = "ilmsux".toList := by
  simp [all, letter]

theorem exists_twoPow (o : RegexOption) : ∃ i, o.bit.toBitVec = BitVec.twoPow 32 i := by
  cases o
  · exact ⟨1, rfl⟩
  · exact ⟨2, rfl⟩
  · exact ⟨3, rfl⟩
  · exact ⟨4, rfl⟩
  · exact ⟨5, rfl⟩
  · exact ⟨6, rfl⟩

end RegexOption

namespace RegexOptions

theorem has_bit (o o' : RegexOption) : has ⟨o'.bit⟩ o = decide (o = o') := by
  cases o <;> cases o' <;> rfl

theorem and_bit (bits : UInt32) (o : RegexOption) :
    bits &&& o.bit = if has ⟨bits⟩ o then o.bit else 0 := by
  obtain ⟨i, hi⟩ := o.exists_twoPow
  have hcases : bits &&& o.bit = o.bit ∨ bits &&& o.bit = 0 := by
    rw [← UInt32.toBitVec_inj, ← UInt32.toBitVec_inj, UInt32.toBitVec_and, hi, BitVec.and_twoPow]
    by_cases h : bits.toBitVec.getLsbD i = true
    · simp [h]
    · simp [h]
  unfold has
  rcases hcases with h | h
  · simp [h]
  · simp [h]

theorem has_or (a b : UInt32) (o : RegexOption) :
    has ⟨a ||| b⟩ o = (has ⟨a⟩ o || has ⟨b⟩ o) := by
  have hzero : (0 == o.bit) = false := by cases o <;> rfl
  rw [has, and_or_right, and_bit, and_bit]
  cases has ⟨a⟩ o <;> cases has ⟨b⟩ o <;> simp [hzero]

theorem has_foldl (p : RegexOption → Bool) (os : List RegexOption) (bits : UInt32)
    (o : RegexOption) :
    has ⟨os.foldl (fun bits o => if p o then bits ||| o.bit else bits) bits⟩ o =
      (has ⟨bits⟩ o || decide (o ∈ os) && p o) := by
  induction os generalizing bits with
  | nil => simp
  | cons o' os ih =>
    rw [List.foldl_cons, ih]
    by_cases hp : p o' = true
    · by_cases ho : o = o'
      · simp [hp, ho, has_or, has_bit]
      · simp [hp, ho, has_or, has_bit]
    · by_cases ho : o = o'
      · simp [hp, ho]
      · simp [hp, ho]

/-- The mask of a text has the options whose letters occur there. -/
theorem has_ofLetters (s : String) (o : RegexOption) :
    (ofLetters s).has o = decide (o.letter ∈ s.toList) := by
  have hzero : has ⟨0⟩ o = false := by cases o <;> rfl
  rw [ofLetters, has_foldl, hzero, String.contains_char_eq]
  simp [RegexOption.mem_all]

theorem letters_eq_filter (m : RegexOptions) (p : Char → Bool)
    (h : ∀ o, m.has o = p o.letter) : m.letters = String.ofList ("ilmsux".toList.filter p) := by
  have hhas : m.has = p ∘ RegexOption.letter := funext h
  rw [letters, toList, hhas, ← List.filter_map, RegexOption.letters_all]

theorem ext_has {m m' : RegexOptions} (h : m.unknown = 0) (h' : m'.unknown = 0)
    (hhas : ∀ o, m.has o = m'.has o) : m = m' := by
  refine eq_of_letters_eq h h' ?_
  rw [letters, letters, toList, toList, funext hhas]

theorem ofLetters_eq_iff {s t : String} : ofLetters s = ofLetters t ↔
    ∀ o : RegexOption, o.letter ∈ s.toList ↔ o.letter ∈ t.toList := by
  refine ⟨fun h o => ?_, fun h => ext_has (unknown_ofLetters s) (unknown_ofLetters t) fun o => ?_⟩
  · have hhas := congrArg (has · o) h
    simpa only [has_ofLetters, decide_eq_decide] using hhas
  · rw [has_ofLetters, has_ofLetters, decide_eq_decide.2 (h o)]

theorem ofLetters_append (s t : String) :
    ofLetters (s ++ t) = ⟨(ofLetters s).bits ||| (ofLetters t).bits⟩ := by
  have hunknown : unknown ⟨(ofLetters s).bits ||| (ofLetters t).bits⟩ = 0 := by
    rw [unknown_or, unknown_ofLetters, unknown_ofLetters, UInt32.or_zero]
  refine ext_has (unknown_ofLetters _) hunknown fun o => ?_
  rw [has_or, has_ofLetters, has_ofLetters, has_ofLetters, String.toList_append]
  simp

theorem has_known (m : RegexOptions) (o : RegexOption) : has ⟨m.bits &&& 126⟩ o = m.has o := by
  have hknown : 126 &&& o.bit = o.bit := by cases o <;> rfl
  rw [has, has, UInt32.and_assoc, hknown]

/-- The letters of a mask tell its known bits. -/
theorem ofLetters_letters_eq (m : RegexOptions) : ofLetters m.letters = ⟨m.bits &&& 126⟩ := by
  refine ext_has (unknown_ofLetters _) ?_ fun o => ?_
  · have hnone : (126 : UInt32) &&& ~~~126 = 0 := by decide
    rw [unknown_eq, UInt32.and_assoc, hnone, UInt32.and_zero]
  · rw [has_known, has_ofLetters, ← contains_letters, String.contains_char_eq]

end RegexOptions

namespace Decode

variable {limits : Limits} {n : Nat} {f : Field}

/-- A pattern comes from an element for it, whose second child has the letters of its options. -/
theorem exists_of_value_eq_regex {r : Regex} (h : value limits n f = .ok (.regex r)) :
    ∃ a b, f.children = [a, b] ∧ value limits (n + 1) a = .ok (.string r.pattern)
      ∧ b.tag = "options" ∧ r.options = .ofLetters (b.text.getD "") := by
  obtain ⟨rule, hrule, hkind⟩ := kind_value h
  obtain rfl : rule = .regex := by cases rule <;> simp [Value.kind, Rule.kind] at hkind ⊢
  cases shape f with
  | unknown hr => simp [hr] at hrule
  | scalar r' x hr hx =>
    obtain rfl := Option.some.inj (hr.symm.trans hrule)
    cases hx
  | document _ hr => simp [hr] at hrule
  | array _ hr => simp [hr] at hrule
  | reference a b _ hr _ => simp [hr] at hrule
  | regex a b _ hr hc =>
    simp only [value_regex hr hc, bind_eq_ok_iff, descend_eq_ok_iff, asString_eq_ok_iff,
      options_eq_ok_iff] at h
    obtain ⟨_, ⟨-, rfl⟩, _, ha, pattern, rfl, o, ⟨htag, rfl⟩, hr⟩ := h
    obtain rfl := Value.regex.inj (Except.ok.inj hr)
    exact ⟨a, b, hc, ha, htag, rfl⟩
  | miscounted _ hr hc =>
    rw [value_not_two hr hc] at h
    cases h

end Decode

namespace RegexOptions

/-- Letters and masks correspond to each other on the known bits. A mask is shown by those of the
six letters that occur in the text that it was read from, whatever else is there and in whatever
order; texts are read as the same mask exactly if the same letters occur in them, and one text after
another as what the two have together. The letters of any mask are read as its known bits, so the
options that a pattern was decoded with are those that its JSON form tells. -/
theorem letters_correspond :
    (∀ s : String, (ofLetters s).letters = String.ofList ("ilmsux".toList.filter (· ∈ s.toList)))
      ∧ (∀ s t : String, ofLetters s = ofLetters t ↔
        ∀ c ∈ "ilmsux".toList, c ∈ s.toList ↔ c ∈ t.toList)
      ∧ (∀ s t : String, (ofLetters (s ++ t)).bits = (ofLetters s).bits ||| (ofLetters t).bits)
      ∧ (∀ m : RegexOptions, (ofLetters m.letters).bits = m.bits &&& 126)
      ∧ ∀ (limits : Limits) (n : Nat) (f : Field) (r : Regex),
        Decode.value limits n f = .ok (.regex r) →
          ∃ a b letters, f.children = [a, b] ∧ r.options = ofLetters (b.text.getD "")
            ∧ (Value.regex r).toJson = .object [("$regularExpression",
              .object [("pattern", .string r.pattern), ("options", .string letters)])]
            ∧ ∀ c : Field, c.tag = "options" → c.text = some letters →
              Decode.options c = .ok r.options := by
  refine ⟨fun s => ?_, fun s t => ?_, fun s t => ?_, fun m => ?_, fun limits n f r h => ?_⟩
  · exact letters_eq_filter _ _ (has_ofLetters s)
  · rw [ofLetters_eq_iff, ← RegexOption.letters_all, List.forall_mem_map]
    exact ⟨fun h o _ => h o, fun h o => h o o.mem_all⟩
  · rw [ofLetters_append]
  · rw [ofLetters_letters_eq]
  · obtain ⟨a, b, hc, -, -, hoptions⟩ := Decode.exists_of_value_eq_regex h
    refine ⟨a, b, r.options.letters, hc, hoptions, rfl, fun c htag htext => ?_⟩
    have hknown : r.options.unknown = 0 := hoptions ▸ unknown_ofLetters _
    exact Decode.options_eq_ok_iff.2 ⟨htag, by rw [htext, Option.getD_some,
      ofLetters_letters hknown]⟩

/-- Letters out of order, twice and in the other case, beside an unknown one. -/
theorem letters_correspond_mixed :
    Decode.value {} 0 (.mk "regex" none none [.mk "pattern" none (some "^a") [],
        .mk "options" none (some "xqMixx") []]) = .ok (.regex ⟨"^a", ⟨66⟩⟩)
      ∧ ∃ letters, (Value.regex ⟨"^a", ⟨66⟩⟩).toJson = .object [("$regularExpression",
          .object [("pattern", .string "^a"), ("options", .string letters)])]
        ∧ Decode.options (.mk "options" none (some letters) []) = .ok ⟨66⟩ := by
  have hmask : ofLetters "xqMixx" = ⟨66⟩ := by
    refine ext_has (unknown_ofLetters _) rfl fun o => ?_
    rw [has_ofLetters]
    cases o <;> rfl
  have hvalue : Decode.value {} 0 (.mk "regex" none none [.mk "pattern" none (some "^a") [],
      .mk "options" none (some "xqMixx") []]) = .ok (.regex ⟨"^a", ofLetters "xqMixx"⟩) := by rfl
  rw [hmask] at hvalue
  obtain ⟨-, -, -, -, hjson⟩ := letters_correspond
  obtain ⟨_, _, letters, -, -, htree, hread⟩ := hjson _ _ _ _ hvalue
  exact ⟨hvalue, letters, htree, hread _ rfl rfl⟩

end RegexOptions

end TypedDoc

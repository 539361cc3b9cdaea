import TypedDoc.Proofs.Faults
import TypedDoc.Proofs.Threshold
import TypedDoc.Reading

/-!
# Higher limits

Limits only cut answers off: with higher limits there is nothing new but in place of an error of a
limit. Two outcomes are compared so that such an error may give way to anything, and everything
else stays as it is (`Persists`). Steps that are compared so can be put one after another
(`Persists.bind`), and with that each rule of decoding is (`value_persists`). The walk over the
bytes of a text finds fewer levels that are too deep as the limit grows (`exceeds_mono`), so
reading a text is no different (`outcome_of_higher_limits`).
-/

namespace TypedDoc

/-- The errors of limits: an element that lies too deep, and a position past the longest array. -/
inductive Error.OfLimit : Error → Prop
  | depth (limit : Nat) : OfLimit (.depthLimitExceeded limit)
  | length (name : String) (limit : Nat) :
    OfLimit (.malformedValue "array" name (.indexLimit limit))

variable {α β σ : Type}

/-- No limit has a part in an outcome: it is a result, or an error about something else. -/
def Settled (x : Except Error α) : Prop := ∀ e, x = .error e → ¬ e.OfLimit

/-- An outcome in which no limit has a part is what the other one is, too. -/
def Persists (x x' : Except Error α) : Prop := Settled x → x' = x

namespace Persists

theorem refl (x : Except Error α) : Persists x x := fun _ => rfl

theorem of_ofLimit {e : Error} (he : e.OfLimit) (x' : Except Error α) :
    Persists (.error e) x' := fun h => absurd he (h e rfl)

theorem bind {x x' : Except Error α} {f f' : α → Except Error β} (hx : Persists x x')
    (hf : ∀ a, Persists (f a) (f' a)) : Persists (x >>= f) (x' >>= f') := by
  intro h
  rcases x with e | a
  · have hsettled : Settled (.error e : Except Error α) := by
      rintro _ ⟨⟩
      exact h e rfl
    rw [hx hsettled]
    rfl
  · rw [hx nofun]
    exact hf a h

theorem map {x x' : Except Error α} (hx : Persists x x') (f : α → β) :
    Persists (x.map f) (x'.map f) := by
  intro h
  have hsettled : Settled x := fun e he => h e (map_eq_error_iff.2 he)
  rw [hx hsettled]

theorem foldlM {f f' : σ → α → Except Error σ} (hf : ∀ s a, Persists (f s a) (f' s a))
    (xs : List α) (s : σ) : Persists (xs.foldlM f s) (xs.foldlM f' s) := by
  induction xs generalizing s with
  | nil => exact refl _
  | cons a xs ih =>
    rw [List.foldlM_cons, List.foldlM_cons]
    exact (hf s a).bind ih

end Persists

/-! ## Decoding -/

namespace Decode

variable {limits limits' : Limits}

theorem descend_persists (hd : limits.maxDepth ≤ limits'.maxDepth) (n : Nat) :
    Persists (descend limits n) (descend limits' n) := by
  unfold descend
  by_cases h : n + 1 ≤ limits.maxDepth
  · rw [if_pos h, if_pos (Nat.le_trans h hd)]
    exact .refl _
  · rw [if_neg h]
    exact .of_ofLimit (.depth _) _

theorem members_persists {fs : List Field}
    (h : ∀ f ∈ fs, ∀ n, Persists (value limits n f) (value limits' n f)) (n : Nat)
    (parent : String) (d : Document) :
    Persists (members limits n parent d fs) (members limits' n parent d fs) := by
  induction fs generalizing d with
  | nil => exact .refl _
  | cons f fs ih =>
    rw [List.forall_mem_cons] at h
    rw [members, members]
    rcases f.name with _ | name
    · exact .refl _
    · exact (h.1 n).bind fun v => ih h.2 _

theorem document_persists (hd : limits.maxDepth ≤ limits'.maxDepth) {cs : List Field}
    (h : ∀ f ∈ cs, ∀ n, Persists (value limits n f) (value limits' n f)) (n : Nat)
    (tag : String) : Persists (document limits n tag cs) (document limits' n tag cs) := by
  have henter : Persists (enter limits n cs) (enter limits' n cs) := by
    unfold enter
    split
    · exact .refl _
    · exact descend_persists hd n
  exact henter.bind fun m => members_persists h m tag .empty

/-- The positions before the first one that is past the limit are the same. -/
theorem dense_persists (ha : limits.maxArrayLength ≤ limits'.maxArrayLength)
    (ps : List (String × Value)) :
    Persists (Dense.ofPairs limits.maxArrayLength ps)
      (Dense.ofPairs limits'.maxArrayLength ps) := by
  refine Persists.map (Persists.foldlM (fun items p => ?_) ps #[]) _
  unfold Dense.step
  rcases Numeral.Integer.readIndex? p.1.toList with _ | i
  · exact .refl _
  · simp only []
    by_cases h : i < limits.maxArrayLength
    · rw [if_pos h, if_pos (Nat.lt_of_lt_of_le h ha)]
      exact .refl _
    · rw [if_neg h]
      exact .of_ofLimit (.length _ _) _

/-- Induction on the element: both runs take the same rule. -/
theorem value_persists (hd : limits.maxDepth ≤ limits'.maxDepth)
    (ha : limits.maxArrayLength ≤ limits'.maxArrayLength) :
    ∀ f n, Persists (value limits n f) (value limits' n f) := by
  intro f
  induction f using Field.induction with
  | h f ih =>
    intro n
    have hdoc := document_persists hd ih n f.tag
    cases shape f with
    | unknown h =>
      rw [value_unknown h, value_unknown h]
      exact .refl _
    | scalar r x h hx =>
      rw [value_scalar h hx, value_scalar h hx]
      exact .refl _
    | document _ h =>
      rw [value_document h, value_document h]
      exact hdoc.map _
    | array _ h =>
      rw [value_array h, value_array h]
      exact hdoc.bind fun d => (dense_persists ha d.items).bind fun vs => .refl _
    | reference a b _ h hc =>
      rw [value_reference h hc, value_reference h hc]
      exact (descend_persists hd n).bind fun m => (ih a (by simp [hc]) m).bind fun v =>
        (Persists.refl _).bind fun s => (ih b (by simp [hc]) m).bind fun id => .refl _
    | regex a b _ h hc =>
      rw [value_regex h hc, value_regex h hc]
      exact (descend_persists hd n).bind fun m => (ih a (by simp [hc]) m).bind fun v =>
        .refl _
    | miscounted _ h hc =>
      rw [value_not_two h hc, value_not_two h hc]
      exact .refl _

theorem children_persists (hd : limits.maxDepth ≤ limits'.maxDepth)
    (ha : limits.maxArrayLength ≤ limits'.maxArrayLength) (f : Field) :
    Persists (children limits f) (children limits' f) :=
  document_persists hd (fun g _ => value_persists hd ha g) 0 f.tag

theorem tree_persists (hd : limits.maxDepth ≤ limits'.maxDepth)
    (ha : limits.maxArrayLength ≤ limits'.maxArrayLength) (root : Field) :
    Persists (tree limits root) (tree limits' root) := by
  unfold tree
  split
  · exact children_persists hd ha _
  · exact .refl _

end Decode

/-! ## Texts -/

namespace Markup.Depth

theorem exceeds_mono {limit limit' : Nat} (hl : limit ≤ limit') (bs : List UInt8) :
    exceeds limit' 0 bs = true → exceeds limit 0 bs = true := by
  rw [exceeds_iff_lt_deepest, exceeds_iff_lt_deepest]
  exact Nat.lt_of_le_of_lt hl

theorem check_persists {maxDepth maxDepth' : Nat} (h : maxDepth ≤ maxDepth') (text : String) :
    Persists (check maxDepth text) (check maxDepth' text) := by
  unfold check
  by_cases he : exceeds (levels maxDepth) 0 (Text.utf8 text.toList) = true
  · rw [if_pos he]
    exact .of_ofLimit (.depth _) _
  · rw [if_neg he, if_neg (mt (exceeds_mono (levels_mono h) _) he)]
    exact .refl _

end Markup.Depth

theorem Document.read_persists {limits limits' : Limits}
    (hd : limits.maxDepth ≤ limits'.maxDepth)
    (ha : limits.maxArrayLength ≤ limits'.maxArrayLength) (text : String) :
    Persists (Document.read limits text) (Document.read limits' text) :=
  (Markup.Depth.check_persists hd text).bind fun _ => (Persists.refl _).bind fun root =>
    Decode.tree_persists hd ha root.toField

/-- With higher limits, every result and every error that is not about a limit is the same. -/
theorem outcome_of_higher_limits {limits limits' : Limits}
    (hd : limits.maxDepth ≤ limits'.maxDepth)
    (ha : limits.maxArrayLength ≤ limits'.maxArrayLength) :
    (∀ node, Settled (Decode.children limits node) →
        Decode.children limits' node = Decode.children limits node)
      ∧ (∀ root, Settled (Decode.tree limits root) →
        Decode.tree limits' root = Decode.tree limits root)
      ∧ (∀ f, Settled (Decode.element limits f) →
        Decode.element limits' f = Decode.element limits f)
      ∧ ∀ text, Settled (Document.read limits text) →
        Document.read limits' text = Document.read limits text :=
  ⟨Decode.children_persists hd ha, Decode.tree_persists hd ha,
    fun f => Decode.value_persists hd ha f 0, Document.read_persists hd ha⟩

/-- The last position of the shortest array that has it comes before a name that is none. -/
theorem outcome_of_higher_limits_array :
    Decode.children ⟨2, 2⟩ (.mk "doc" none none [.mk "array" (some "a") none
        [.mk "null" (some "1") none [], .mk "null" (some "x") none []]]) =
      .error (.malformedValue "array" "x" .notAnIndex)
      ∧ Decode.children ⟨3, 5⟩ (.mk "doc" none none [.mk "array" (some "a") none
          [.mk "null" (some "1") none [], .mk "null" (some "x") none []]]) =
        .error (.malformedValue "array" "x" .notAnIndex) := by
  have h : Decode.children ⟨2, 2⟩ (.mk "doc" none none [.mk "array" (some "a") none
      [.mk "null" (some "1") none [], .mk "null" (some "x") none []]]) =
      .error (.malformedValue "array" "x" .notAnIndex) := rfl
  have hsettled : Settled (Decode.children ⟨2, 2⟩ (.mk "doc" none none
      [.mk "array" (some "a") none
        [.mk "null" (some "1") none [], .mk "null" (some "x") none []]])) := by
    rw [h]
    rintro _ ⟨⟩ ⟨⟩
  have hd : (⟨2, 2⟩ : Limits).maxDepth ≤ (⟨3, 5⟩ : Limits).maxDepth := by decide
  have ha : (⟨2, 2⟩ : Limits).maxArrayLength ≤ (⟨3, 5⟩ : Limits).maxArrayLength := by decide
  have hsame := (outcome_of_higher_limits hd ha).1 _ hsettled
  exact ⟨h, hsame.trans h⟩

end TypedDoc

import Mathlib.Data.List.Nodup
import Mathlib.Data.List.Perm.Basic
import TypedDoc.Plain
import TypedDoc.Proofs.Items

/-!
# What flattening forgets

A plain tree keeps a document but for the order of its pairs, and that is all it forgets: two
documents have the same plain tree exactly if one becomes the other by giving their pairs another
order, at the top and in documents that are reached through documents and arrays
(`Document.flatten_eq_iff`). A document in a reference is not reached, so its order is kept. Since a
table lists its entries in ascending order, equal tables have the same entries up to their order,
which is how the order of the pairs comes in (`Document.flatten_eq_iff_perm`).
-/

namespace TypedDoc

section Lists

variable {α β : Type} {as : List α}

theorem map_eq_map_iff_forall₂ {γ : Type} {f : α → γ} {g : β → γ} {bs : List β} :
    as.map f = bs.map g ↔ List.Forall₂ (fun a b => f a = g b) as bs := by
  rw [← List.forall₂_eq_eq_eq, List.forall₂_map_left_iff, List.forall₂_map_right_iff]

theorem forall₂_imp_of_mem {R S : α → β → Prop} {bs : List β}
    (h : ∀ a ∈ as, ∀ b ∈ bs, R a b → S a b) (hR : List.Forall₂ R as bs) :
    List.Forall₂ S as bs := by
  induction hR with
  | nil => exact .nil
  | cons hab _ ih =>
    refine .cons (h _ List.mem_cons_self _ List.mem_cons_self hab) (ih fun a ha b hb => ?_)
    exact h a (List.mem_cons_of_mem _ ha) b (List.mem_cons_of_mem _ hb)

theorem forall₂_congr_of_mem {R S : α → β → Prop} {bs : List β}
    (h : ∀ a ∈ as, ∀ b ∈ bs, R a b ↔ S a b) : List.Forall₂ R as bs ↔ List.Forall₂ S as bs :=
  ⟨forall₂_imp_of_mem fun a ha b hb => (h a ha b hb).1,
    forall₂_imp_of_mem fun a ha b hb => (h a ha b hb).2⟩

theorem forall₂_pairs_iff {R : β → β → Prop} {ps qs : List (α × β)} :
    List.Forall₂ (fun p q => p.1 = q.1 ∧ R p.2 q.2) ps qs ↔
      ps.map (·.1) = qs.map (·.1) ∧ List.Forall₂ R (ps.map (·.2)) (qs.map (·.2)) := by
  induction ps generalizing qs with
  | nil => rcases qs with _ | ⟨q, qs⟩ <;> simp
  | cons p ps ih =>
    rcases qs with _ | ⟨q, qs⟩
    · simp
    · simp only [List.forall₂_cons, List.map_cons, List.cons.injEq, ih]
      tauto

theorem map_perm_iff {f : α → β} {bs : List β} :
    (as.map f).Perm bs ↔ ∃ cs, as.Perm cs ∧ cs.map f = bs := by
  refine ⟨fun h => ?_, ?_⟩
  · have hcomp : Relation.Comp (List.Forall₂ fun a b => f a = b) List.Perm as bs :=
      ⟨as.map f, List.forall₂_map_right_iff.2 (List.forall₂_same.2 fun _ _ => rfl), h⟩
    rw [List.forall₂_comp_perm_eq_perm_comp_forall₂] at hcomp
    obtain ⟨cs, hp, hf⟩ := hcomp
    refine ⟨cs, hp, ?_⟩
    rw [← List.forall₂_eq_eq_eq, List.forall₂_map_left_iff]
    exact hf
  · rintro ⟨cs, hp, rfl⟩
    exact hp.map f

end Lists

namespace Table

variable {α : Type} {t t' : Table α}

theorem eq_of_perm (h : t.Ascending) (h' : t'.Ascending) (hp : t.Perm t') : t = t' :=
  hp.eq_of_pairwise (fun _ _ _ _ hab hba => absurd hba (String.lt_asymm hab)) h h'

end Table

theorem OrderedMap.WellFormed.items_perm_entries {α : Type} {m : OrderedMap α}
    (h : m.WellFormed) : m.items.Perm m.entries := by
  have hitems : m.items.Nodup := by
    refine List.Nodup.of_map (·.1) ?_
    rw [h.keys_items]
    exact h.nodup_order
  have hentries : m.entries.Nodup :=
    List.Nodup.of_map (fun p : String × α => p.1) h.nodup_keys
  rw [List.perm_ext_iff_of_nodup hitems hentries]
  refine fun p => ⟨Table.mem_of_mem_arrange, fun hp => ?_⟩
  have hfind := (Table.find?_eq_some_iff h.nodup_keys).2 hp
  have hkey : p.1 ∈ m.order := (h.mem_order_iff_isSome p.1).2 (Option.isSome_of_eq_some hfind)
  exact List.mem_filterMap.2 ⟨p.1, hkey, by rw [hfind]; rfl⟩

namespace Value

/-- Every document in a value has parts that agree. -/
def WellFormed (v : Value) : Prop := ∀ d, v.Inner (document d) → d.WellFormed

theorem WellFormed.of_mem_parts {v w : Value} (h : v.WellFormed) (hw : w ∈ v.parts) :
    w.WellFormed := fun d hd => h d (.of_part hw hd)

theorem wellFormed_iff {v : Value} : v.WellFormed ↔
    (∀ d, v = document d → d.WellFormed) ∧ ∀ w ∈ v.parts, w.WellFormed := by
  refine ⟨fun h => ⟨fun d hd => h d (hd ▸ .self), fun w => h.of_mem_parts⟩, ?_⟩
  rintro ⟨hself, hparts⟩ d hd
  rcases inner_iff.1 hd with hd | ⟨w, hw, hd⟩
  · exact hself d hd.symm
  · exact hparts w hw d hd

theorem wellFormed_ofPairs {ps : List (String × Value)} (h : ∀ p ∈ ps, p.2.WellFormed) :
    (document (.ofPairs ps)).WellFormed := by
  refine wellFormed_iff.2 ⟨?_, fun w hw => ?_⟩
  · rintro d ⟨⟩
    exact OrderedMap.wellFormed_ofPairs ps
  · obtain ⟨p, hp, rfl⟩ := OrderedMap.mem_of_mem_values_ofPairs hw
    exact h p hp

theorem wellFormed_single (k : String) {v : Value} (hv : v.WellFormed) :
    (document (.ofPairs [(k, v)])).WellFormed :=
  wellFormed_ofPairs fun _ hp => List.mem_singleton.1 hp ▸ hv

theorem wellFormed_pair (k l : String) {v w : Value} (hv : v.WellFormed) (hw : w.WellFormed) :
    (document (.ofPairs [(k, v), (l, w)])).WellFormed := by
  refine wellFormed_ofPairs fun p hp => ?_
  rcases List.mem_pair.1 hp with rfl | rfl
  · exact hv
  · exact hw

/-- One value becomes the other by giving the pairs of documents another order: those of a document
itself, and then those in its values. Nothing is changed in a value of another kind, not even in the
identifier of a reference. -/
inductive Rearranged : Value → Value → Prop
  | same (v : Value) : Rearranged v v
  | array {as bs : List Value} : List.Forall₂ Rearranged as bs → Rearranged (array as) (array bs)
  | document {d e : Document} {ps : List (String × Value)} : d.items.Perm ps →
    ps.map (·.1) = e.items.map (·.1) → List.Forall₂ Rearranged (ps.map (·.2)) e.values →
    Rearranged (document d) (document e)

theorem rearranged_array_iff {as bs : List Value} :
    (array as).Rearranged (array bs) ↔ List.Forall₂ Rearranged as bs := by
  refine ⟨fun h => ?_, .array⟩
  cases h with
  | same => exact List.forall₂_same.2 fun v _ => .same v
  | array h => exact h

theorem rearranged_document_iff {d e : Document} : (document d).Rearranged (document e) ↔
    ∃ ps, d.items.Perm ps
      ∧ List.Forall₂ (fun p q => p.1 = q.1 ∧ p.2.Rearranged q.2) ps e.items := by
  refine ⟨fun h => ?_, fun ⟨ps, hp, hps⟩ => ?_⟩
  · cases h with
    | same => exact ⟨d.items, .refl _, List.forall₂_same.2 fun p _ => ⟨rfl, .same p.2⟩⟩
    | document hp hk hv => exact ⟨_, hp, forall₂_pairs_iff.2 ⟨hk, hv⟩⟩
  · obtain ⟨hk, hv⟩ := forall₂_pairs_iff.1 hps
    exact .document hp hk hv

theorem rearranged_swap {k l : String} {v v' w w' : Value} (h : k ≠ l) (hv : v.Rearranged v')
    (hw : w.Rearranged w') : (document (.ofPairs [(k, v), (l, w)])).Rearranged
      (document (.ofPairs [(l, w'), (k, v')])) := by
  refine rearranged_document_iff.2 ⟨[(l, w), (k, v)], ?_, ?_⟩
  · rw [OrderedMap.items_ofPairs_of_nodup (by simp [h])]
    exact .swap _ _ []
  · rw [OrderedMap.items_ofPairs_of_nodup (by simp [h.symm])]
    exact .cons ⟨rfl, hw⟩ (.cons ⟨rfl, hv⟩ .nil)

theorem flattenItems_eq (vs : List Value) : flattenItems vs = vs.map flatten :=
  eq_map_of_cons rfl (fun _ _ => rfl) vs

theorem flattenEntries_eq (es : List (String × Value)) :
    flattenEntries es = es.map fun e => (e.1, flatten e.2) :=
  eq_map_of_cons rfl (fun _ _ => rfl) es

end Value

namespace Document

variable {d e : Document}

theorem flatten_perm (hd : d.WellFormed) :
    (d.items.map fun p => (p.1, p.2.flatten)).Perm d.flatten := by
  rw [flatten, Value.flattenEntries_eq]
  exact hd.items_perm_entries.map _

theorem ascending_flatten (hd : d.WellFormed) : Table.Ascending d.flatten := by
  rw [flatten, Value.flattenEntries_eq]
  exact List.pairwise_map.2 hd.ascending_table

theorem flatten_eq_iff_perm (hd : d.WellFormed) (he : e.WellFormed) :
    d.flatten = e.flatten ↔ (d.items.map fun p => (p.1, p.2.flatten)).Perm
      (e.items.map fun p => (p.1, p.2.flatten)) := by
  refine ⟨fun h => ?_, fun h => ?_⟩
  · exact (flatten_perm hd).trans (h ▸ (flatten_perm he).symm)
  · exact Table.eq_of_perm (ascending_flatten hd) (ascending_flatten he)
      ((flatten_perm hd).symm.trans (h.trans (flatten_perm he)))

end Document

namespace Value

theorem flatten_array (items : List Value) : (array items).flatten = .list (items.map flatten) := by
  rw [flatten, flattenItems_eq]

theorem flatten_cases (v : Value) : (∃ items, v = array items) ∨ (∃ d, v = document d)
    ∨ v.flatten = .scalar v := by
  cases v with
  | array items => exact .inl ⟨items, rfl⟩
  | document d => exact .inr (.inl ⟨d, rfl⟩)
  | _ => exact .inr (.inr rfl)

theorem flatten_eq_cases {v w : Value} (h : v.flatten = w.flatten) :
    (∃ as bs, v = array as ∧ w = array bs
        ∧ List.Forall₂ (fun a b => a.flatten = b.flatten) as bs)
      ∨ (∃ d e : Document, v = document d ∧ w = document e ∧ d.flatten = e.flatten)
      ∨ v = w := by
  rcases v.flatten_cases with ⟨as, rfl⟩ | ⟨d, rfl⟩ | hv <;>
    rcases w.flatten_cases with ⟨bs, rfl⟩ | ⟨e, rfl⟩ | hw
  · rw [flatten_array, flatten_array, Plain.list.injEq, map_eq_map_iff_forall₂] at h
    exact .inl ⟨as, bs, rfl, rfl, h⟩
  · cases h
  · rw [hw] at h
    cases h
  · cases h
  · exact .inr (.inl ⟨d, e, rfl, rfl, Plain.map.inj h⟩)
  · rw [hw] at h
    cases h
  · rw [hv] at h
    cases h
  · rw [hv] at h
    cases h
  · rw [hv, hw] at h
    exact .inr (.inr (Plain.scalar.inj h))

theorem flatten_eq_iff_rearranged : ∀ v w : Value, v.WellFormed → w.WellFormed →
    (v.flatten = w.flatten ↔ v.Rearranged w) := by
  intro v
  induction v using Value.induction with
  | h v ih =>
    intro w hv hw
    have hparts : ∀ a ∈ v.parts, ∀ b ∈ w.parts, a.flatten = b.flatten ↔ a.Rearranged b :=
      fun a ha b hb => ih a ha b (hv.of_mem_parts ha) (hw.of_mem_parts hb)
    -- containers of one kind by their parts; `flatten_eq_cases` shows that there is nothing else
    have harray : ∀ as bs, v = array as → w = array bs →
        (v.flatten = w.flatten ↔ v.Rearranged w) := by
      rintro as bs rfl rfl
      rw [flatten_array, flatten_array, Plain.list.injEq, map_eq_map_iff_forall₂,
        rearranged_array_iff]
      exact forall₂_congr_of_mem hparts
    have hdocument : ∀ d e : Document, v = document d → w = document e →
        (v.flatten = w.flatten ↔ v.Rearranged w) := by
      rintro d e rfl rfl
      have htable : (document d).flatten = (document e).flatten ↔ d.flatten = e.flatten :=
        ⟨Plain.map.inj, congrArg Plain.map⟩
      rw [htable, Document.flatten_eq_iff_perm (hv d .self) (hw e .self), map_perm_iff,
        rearranged_document_iff]
      simp only [map_eq_map_iff_forall₂]
      refine exists_congr fun ps => and_congr_right fun hp => forall₂_congr_of_mem ?_
      intro p hp' q hq
      rw [Prod.mk.injEq]
      refine and_congr_right fun _ => hparts p.2 ?_ q.2 ?_
      · exact OrderedMap.mem_values_of_mem (hp.mem_iff.2 hp')
      · exact OrderedMap.mem_values_of_mem hq
    refine ⟨fun h => ?_, fun h => ?_⟩
    · rcases flatten_eq_cases h with ⟨as, bs, hv', hw', -⟩ | ⟨d, e, hv', hw', -⟩ | rfl
      · exact (harray as bs hv' hw').1 h
      · exact (hdocument d e hv' hw').1 h
      · exact .same v
    · cases id h with
      | same => rfl
      | array => exact (harray _ _ rfl rfl).2 h
      | document => exact (hdocument _ _ rfl rfl).2 h

end Value

namespace Document

variable {d e : Document}

theorem flatten_eq_iff_find? (hd : d.WellFormed) (he : e.WellFormed) : d.flatten = e.flatten ↔
    ∀ key, (d.get? key).map Value.flatten = (e.get? key).map Value.flatten := by
  have hfind : ∀ (c : Document) key,
      Table.find? c.flatten key = (c.get? key).map Value.flatten := by
    intro c key
    rw [flatten, Value.flattenEntries_eq]
    exact Table.find?_map _ _ _
  refine ⟨fun h key => by rw [← hfind, ← hfind, h], fun h => ?_⟩
  exact Table.ext (ascending_flatten hd) (ascending_flatten he) fun key => by
    rw [hfind, hfind, h]

/-- Two documents have the same plain tree exactly if one becomes the other by giving pairs another
order, as far as documents and arrays lead. All else is kept, at every level: the keys and what is
under each of them, the places of the items of an array, whether something is a document or an
array, and the other values as they are, references with the order in their identifiers. -/
theorem flatten_eq_iff (hd : (Value.document d).WellFormed) (he : (Value.document e).WellFormed) :
    (d.flatten = e.flatten ↔ (Value.document d).Rearranged (.document e))
      ∧ (d.flatten = e.flatten ↔
        ∀ key, (d.get? key).map Value.flatten = (e.get? key).map Value.flatten)
      ∧ ∀ v w : Value, v.flatten = w.flatten →
        (∃ as bs, v = .array as ∧ w = .array bs
            ∧ List.Forall₂ (fun a b => a.flatten = b.flatten) as bs)
          ∨ (∃ d e : Document, v = .document d ∧ w = .document e ∧ d.flatten = e.flatten)
          ∨ v = w := by
  refine ⟨?_, flatten_eq_iff_find? (hd d .self) (he e .self), fun _ _ => Value.flatten_eq_cases⟩
  rw [← Value.flatten_eq_iff_rearranged _ _ hd he]
  exact ⟨congrArg Plain.map, Plain.map.inj⟩

/-- Pairs in another order at the top and in a document in an array. -/
theorem flatten_eq_iff_nested :
    flatten (.ofPairs [("b", .array [.document (.ofPairs [("x", .null), ("y", .null)])]),
        ("a", .null)]) =
      flatten (.ofPairs [("a", .null),
        ("b", .array [.document (.ofPairs [("y", .null), ("x", .null)])])]) := by
  have hnull : Value.WellFormed .null := Value.wellFormed_iff.2 ⟨nofun, nofun⟩
  have hitem : ∀ v : Value, v.WellFormed → (Value.array [v]).WellFormed := fun v hv =>
    Value.wellFormed_iff.2 ⟨nofun, fun w hw => List.mem_singleton.1 hw ▸ hv⟩
  have hxy := Value.wellFormed_pair "x" "y" hnull hnull
  have hyx := Value.wellFormed_pair "y" "x" hnull hnull
  refine (flatten_eq_iff (Value.wellFormed_pair _ _ (hitem _ hxy) hnull)
    (Value.wellFormed_pair _ _ hnull (hitem _ hyx))).1.2 ?_
  have hinner := Value.rearranged_swap (k := "x") (l := "y") (by decide) (.same .null) (.same .null)
  exact Value.rearranged_swap (by decide) (.array (.cons hinner .nil)) (.same .null)

end Document

end TypedDoc

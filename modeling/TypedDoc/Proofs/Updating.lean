import TypedDoc.Proofs.Agreement
import TypedDoc.Proofs.Outcome

/-!
# Sources of updates

Which pairs a source holds (`Source.Holds`) and which sources hold none because they are no good
(`Source.Refused`), said without the checks that an update makes. Every source is of one of the two
sorts (`Source.toPairs_cases`). An update either leaves the document alone or writes all pairs of
its source, and these alone count, not the shape in which they come (`update_all_or_nothing`).
-/

namespace TypedDoc

/-- The pairs that a source holds, in their order. -/
inductive Source.Holds : Source → List (String × Value) → Prop
  | document (d : Document) : Holds (.document d) d.items
  | mapping {m : Mapping} {ps : List (String × Value)} :
    List.Forall₂ (fun key p => p.1 = key ∧ m.find? key = some p.2) m.keys ps →
      Holds (.mapping m) ps
  | pairs (ps : List (String × Value)) : Holds (.pairs ps) ps
  | fields (d : Document) : Holds (.value (.document d)) d.items
  | rows (ps : List (String × Value)) :
    Holds (.value (.array (ps.map fun p => .array [.string p.1, p.2]))) ps

/-- A mapping that lists a key without a value, a value of the wrong kind, or an array with an item
that is not a string and a value. -/
inductive Source.Refused : Source → Prop
  | dangling {m : Mapping} {key : String} : key ∈ m.keys → m.find? key = none →
    Refused (.mapping m)
  | item {items : List Value} {v : Value} : v ∈ items →
    (∀ key w, v ≠ .array [.string key, w]) → Refused (.value (.array items))
  | kind {v : Value} : (∀ d, v ≠ .document d) → (∀ items, v ≠ .array items) → Refused (.value v)

theorem Value.pair_eq_ok_iff {v : Value} {p : String × Value} :
    v.pair = .ok p ↔ v = .array [.string p.1, p.2] := by
  obtain ⟨key, w⟩ := p
  unfold Value.pair
  split
  · simp
  · rename_i other w' hne
    refine ⟨nofun, fun h => ?_⟩
    simp only [Value.array.injEq, List.cons.injEq] at h
    exact absurd h.1 (hne key)
  · rename_i hne _
    exact ⟨nofun, fun h => absurd h (hne key w)⟩

theorem Value.pair_cases (v : Value) : (∃ p, v.pair = .ok p) ∨
    (∃ fault, v.pair = .error (.argument fault)) ∧ ∀ key w, v ≠ .array [.string key, w] := by
  rcases hp : v.pair with e | p
  · refine .inr ⟨?_, fun key w hv => ?_⟩
    · unfold Value.pair at hp
      split at hp
      · cases hp
      · exact ⟨_, (congrArg _ (Except.error.inj hp)).symm⟩
      · exact ⟨_, (congrArg _ (Except.error.inj hp)).symm⟩
    · rw [Value.pair_eq_ok_iff (p := (key, w)) |>.2 hv] at hp
      cases hp
  · exact .inl ⟨p, rfl⟩

namespace Source

theorem holds_rows_iff {items : List Value} {ps : List (String × Value)} :
    Holds (.value (.array items)) ps ↔
      List.Forall₂ (fun v p => v = .array [.string p.1, p.2]) items ps := by
  refine ⟨?_, fun h => ?_⟩
  · rintro ⟨⟩
    exact List.forall₂_map_left_iff.2 (List.forall₂_same.2 fun _ _ => rfl)
  · have heq : items = ps.map fun p => .array [.string p.1, p.2] := by
      induction h with
      | nil => rfl
      | cons h _ ih => rw [List.map_cons, ← h, ← ih]
    exact heq ▸ .rows ps

theorem pairs_eq_ok_iff {m : Mapping} {ps : List (String × Value)} :
    m.pairs = .ok ps ↔ Holds (.mapping m) ps := by
  rw [Mapping.pairs, mapM_eq_ok_iff]
  refine ⟨fun h => .mapping (h.imp fun key p hp => ?_), fun h => ?_⟩
  · split at hp
    · rename_i v hv
      obtain rfl := Except.ok.inj hp
      exact ⟨rfl, hv⟩
    · cases hp
  · rcases h with _ | hm
    refine hm.imp fun key p hp => ?_
    rw [hp.2, ← hp.1]

theorem toPairs_eq_ok_iff {s : Source} {ps : List (String × Value)} :
    s.toPairs = .ok ps ↔ s.Holds ps := by
  rcases s with d | m | qs | v
  · refine ⟨fun h => ?_, fun h => by cases h; rfl⟩
    obtain rfl := Except.ok.inj h
    exact .document d
  · exact pairs_eq_ok_iff
  · refine ⟨fun h => ?_, fun h => by cases h; rfl⟩
    obtain rfl := Except.ok.inj h
    exact .pairs qs
  · cases v with
    | document d =>
      refine ⟨fun h => ?_, fun h => by cases h; rfl⟩
      obtain rfl := Except.ok.inj h
      exact .fields d
    | array items =>
      simp only [toPairs, mapM_eq_ok_iff, Value.pair_eq_ok_iff]
      exact holds_rows_iff.symm
    | _ => exact ⟨nofun, nofun⟩

theorem not_holds_of_refused {s : Source} (h : s.Refused) (ps : List (String × Value)) :
    ¬ s.Holds ps := by
  intro hs
  cases h with
  | dangling hk hnone =>
    rcases hs with _ | hm
    obtain ⟨p, -, hp⟩ := exists_forall₂_iff.1 ⟨ps, hm⟩ _ hk
    rw [hnone] at hp
    cases hp
  | item hv hne =>
    obtain ⟨p, hp⟩ := exists_forall₂_iff.1 ⟨ps, holds_rows_iff.1 hs⟩ _ hv
    exact hne _ _ hp
  | kind hd ha =>
    cases hs with
    | fields d => exact hd d rfl
    | rows qs => exact ha _ rfl

theorem toPairs_eq_error {s : Source} {e : Error} (h : s.toPairs = .error e) :
    (∃ fault, e = .argument fault) ∧ s.Refused := by
  rcases s with d | m | qs | v
  · cases h
  · obtain ⟨key, hkey, he⟩ := exists_of_mapM_eq_error h
    split at he
    · cases he
    · rename_i hnone
      exact ⟨⟨_, (Except.error.inj he).symm⟩, .dangling hkey hnone⟩
  · cases h
  · cases v with
    | document d => cases h
    | array items =>
      obtain ⟨v, hv, he⟩ := exists_of_mapM_eq_error h
      rcases v.pair_cases with ⟨p, hp⟩ | ⟨⟨fault, hf⟩, hne⟩
      · rw [hp] at he
        cases he
      · exact ⟨⟨fault, Except.error.inj (he.symm.trans hf)⟩, .item hv hne⟩
    | _ => exact ⟨⟨_, (Except.error.inj h).symm⟩, .kind nofun nofun⟩

/-- A source is refused by an argument error, or it holds the pairs of one list and no other. -/
theorem toPairs_cases (s : Source) :
    (s.Refused ∧ ∃ fault, s.toPairs = .error (.argument fault)) ∨
      ¬ s.Refused ∧ ∃ ps, s.toPairs = .ok ps ∧ ∀ qs, s.Holds qs ↔ qs = ps := by
  rcases hs : s.toPairs with e | ps
  · obtain ⟨⟨fault, rfl⟩, hr⟩ := toPairs_eq_error hs
    exact .inl ⟨hr, fault, rfl⟩
  · refine .inr ⟨fun hr => not_holds_of_refused hr ps (toPairs_eq_ok_iff.1 hs), ps, rfl, ?_⟩
    intro qs
    rw [← toPairs_eq_ok_iff, hs, Except.ok.injEq]
    exact eq_comm

end Source

theorem Table.forall₂_arrange {α : Type} {t : Table α} {order : List String}
    (h : ∀ key ∈ order, ∃ v, t.find? key = some v) :
    List.Forall₂ (fun key p => p.1 = key ∧ t.find? key = some p.2) order (t.arrange order) := by
  induction order with
  | nil => exact .nil
  | cons key order ih =>
    obtain ⟨v, hv⟩ := h key List.mem_cons_self
    rw [Table.arrange, List.filterMap_cons, hv]
    exact .cons ⟨rfl, hv⟩ (ih fun key hk => h key (List.mem_cons_of_mem _ hk))

/-- A document read through its keys holds the pairs that it lists. -/
theorem Source.holds_ofDocument {d : Document} (h : d.WellFormed) :
    Holds (.mapping (.ofDocument d)) d.items :=
  .mapping (Table.forall₂_arrange fun _ hk => h.get?_of_mem hk)

namespace Document

theorem update_of_holds (d : Document) {s : Source} {ps : List (String × Value)}
    (h : s.Holds ps) : d.update s = (.ok (), d.extend ps) := by
  unfold update
  rw [Source.toPairs_eq_ok_iff.2 h]

theorem ofMapping_eq (m : Mapping) : ofMapping m =
    (update .empty (.mapping m)).1.map fun _ => (update .empty (.mapping m)).2 := by
  unfold ofMapping update
  have hm : Source.toPairs (.mapping m) = m.pairs := rfl
  rw [hm]
  rcases m.pairs with e | ps <;> rfl

/-- An update either fails, for a source that is refused and for no other, and leaves the document
alone without writing the overrides; or it writes the pairs of the source and then the overrides,
one after another. The shape of a source does not matter: the pairs of a document give the same
state in each of the five shapes, and an empty document becomes the document of a mapping. -/
theorem update_all_or_nothing (d : Document) (source : Source)
    (overrides : List (String × Value)) :
    let write := List.foldl fun (d : Document) (p : String × Value) => d.set p.1 p.2
    ((source.Refused ∧ ∃ fault, d.update source = (.error (.argument fault), d)
          ∧ d.updateWith (some source) overrides = (.error (.argument fault), d)) ∨
        ¬ source.Refused ∧ ∃ ps, (∀ qs, source.Holds qs ↔ qs = ps)
          ∧ d.update source = (.ok (), write d ps)
          ∧ d.updateWith (some source) overrides = (.ok (), write (write d ps) overrides))
      ∧ d.updateWith none overrides = (.ok (), write d overrides)
      ∧ (∀ e : Document, e.WellFormed → ∀ s ∈ ([.document e, .mapping (.ofDocument e),
          .pairs e.items, .value (.document e),
          .value (.array (e.items.map fun p => .array [.string p.1, p.2]))] : List Source),
        d.update s = (.ok (), write d e.items))
      ∧ ∀ m : Mapping, ofMapping m =
        (update .empty (.mapping m)).1.map fun _ => (update .empty (.mapping m)).2 := by
  refine ⟨?_, rfl, fun e he s hs => ?_, ofMapping_eq⟩
  · rcases source.toPairs_cases with ⟨hr, fault, hs⟩ | ⟨hr, ps, hs, hu⟩
    · have hupdate : d.update source = (.error (.argument fault), d) := by
        unfold update
        rw [hs]
      refine .inl ⟨hr, fault, hupdate, ?_⟩
      simp only [updateWith, Option.map_some, hupdate]
    · have hupdate := d.update_of_holds ((hu ps).2 rfl)
      refine .inr ⟨hr, ps, hu, hupdate, ?_⟩
      simp only [updateWith, Option.map_some, hupdate]
      rfl
  · have hholds : s.Holds e.items := by
      simp only [List.mem_cons, List.not_mem_nil, or_false] at hs
      rcases hs with rfl | rfl | rfl | rfl | rfl
      · exact .document e
      · exact Source.holds_ofDocument he
      · exact .pairs e.items
      · exact .fields e
      · exact .rows e.items
    exact d.update_of_holds hholds

/-- Two rows write two pairs; the same rows with a third one that is too short write none. -/
theorem update_all_or_nothing_rows :
    update .empty (.value (.array [.array [.string "b", .null], .array [.string "a", .null]])) =
        (.ok (), .ofPairs [("b", .null), ("a", .null)])
      ∧ ∃ fault, update .empty (.value (.array [.array [.string "b", .null],
          .array [.string "a", .null], .array [.string "c"]])) =
        (.error (.argument fault), .empty) := by
  refine ⟨?_, ?_⟩
  · exact (update_all_or_nothing .empty (.document .empty) []).2.2.1
      (.ofPairs [("b", .null), ("a", .null)]) (OrderedMap.wellFormed_ofPairs _) _
      (.tail _ (.tail _ (.tail _ (.tail _ (.head _)))))
  · have hrefused : Source.Refused (.value (.array [.array [.string "b", .null],
        .array [.string "a", .null], .array [.string "c"]])) :=
      .item (v := .array [.string "c"]) (by simp) (by simp)
    rcases (update_all_or_nothing .empty (.value (.array [.array [.string "b", .null],
      .array [.string "a", .null], .array [.string "c"]])) []).1 with ⟨-, fault, hu, -⟩ | ⟨h, -⟩
    · exact ⟨fault, hu⟩
    · exact absurd hrefused h

end Document

end TypedDoc

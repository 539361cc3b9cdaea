import TypedDoc.CommandLine
import TypedDoc.Proofs.ByteOrder
import TypedDoc.Proofs.Flattening

/-!
# Plain trees as JSON

A plain tree is written as the document that it was made from, with the keys in the order of their
bytes (`Value.sortKeys`): what goes through tables, which may list their entries in any order
(`Plain.Relisted`), is what the ordered text form gives once the keys are sorted
(`flat_rendering`). The keys of a document in a reference stay as they are in both.
-/

namespace TypedDoc

open CommandLine (Command DecodeOptions)

/-- Keys in the order of their bytes. -/
def bytewise (keys : List String) : List String :=
  keys.mergeSort fun a b => !decide (Text.utf8 b.toList < Text.utf8 a.toList)

namespace Value

mutual

/-- A value with its keys in the order of their bytes, as far as documents and arrays lead. -/
def sortKeys : Value → Value
  | document ⟨order, entries⟩ => document ⟨bytewise order, sortKeysEntries entries⟩
  | array items => array (sortKeysItems items)
  | v => v

def sortKeysItems : List Value → List Value
  | [] => []
  | v :: vs => sortKeys v :: sortKeysItems vs

def sortKeysEntries : List (String × Value) → List (String × Value)
  | [] => []
  | (k, v) :: rest => (k, sortKeys v) :: sortKeysEntries rest

end

theorem sortKeysItems_eq (vs : List Value) : sortKeysItems vs = vs.map sortKeys :=
  eq_map_of_cons rfl (fun _ _ => rfl) vs

theorem sortKeysEntries_eq (es : List (String × Value)) :
    sortKeysEntries es = es.map fun e => (e.1, sortKeys e.2) :=
  eq_map_of_cons rfl (fun _ _ => rfl) es

theorem itemsToJson_eq (vs : List Value) : itemsToJson vs = vs.map toJson :=
  eq_map_of_cons rfl (fun _ _ => rfl) vs

theorem entriesToJson_eq (es : List (String × Value)) :
    entriesToJson es = es.map fun e => (e.1, toJson e.2) :=
  eq_map_of_cons rfl (fun _ _ => rfl) es

theorem toJson_array (items : List Value) : (array items).toJson = .array (items.map toJson) := by
  rw [toJson, itemsToJson_eq]

theorem toJson_document (d : Document) :
    (document d).toJson = .object (d.items.map fun p => (p.1, p.2.toJson)) := by
  obtain ⟨order, entries⟩ := d
  rw [toJson, entriesToJson_eq, Table.arrange_map]
  rfl

end Value

/-- A document with its keys in the order of their bytes, and those in its values likewise. -/
def Document.sortKeys (d : Document) : Document :=
  ⟨bytewise d.order, Value.sortKeysEntries d.entries⟩

namespace Plain

theorem itemsToJson_eq (ps : List Plain) : itemsToJson ps = ps.map toJson :=
  eq_map_of_cons rfl (fun _ _ => rfl) ps

theorem entriesToJson_eq (es : List (String × Plain)) :
    entriesToJson es = es.map fun e => (e.1, toJson e.2) :=
  eq_map_of_cons rfl (fun _ _ => rfl) es

/-- The same plain tree, with the entries of its tables listed in whatever order. -/
inductive Relisted : Plain → Plain → Prop
  | same (p : Plain) : Relisted p p
  | list {ps qs : List Plain} : List.Forall₂ Relisted ps qs → Relisted (list ps) (list qs)
  | map {es fs gs : List (String × Plain)} : es.Perm gs → gs.map (·.1) = fs.map (·.1) →
    List.Forall₂ Relisted (gs.map (·.2)) (fs.map (·.2)) → Relisted (map es) (map fs)

theorem relisted_list_iff {ps : List Plain} {q : Plain} :
    (list ps).Relisted q ↔ ∃ qs, q = list qs ∧ List.Forall₂ Relisted ps qs := by
  refine ⟨fun h => ?_, ?_⟩
  · cases h with
    | same => exact ⟨ps, rfl, List.forall₂_same.2 fun p _ => .same p⟩
    | list h => exact ⟨_, rfl, h⟩
  · rintro ⟨qs, rfl, h⟩
    exact .list h

theorem relisted_map_iff {es : List (String × Plain)} {q : Plain} :
    (map es).Relisted q ↔ ∃ fs gs, q = map fs ∧ es.Perm gs
      ∧ List.Forall₂ (fun g f => g.1 = f.1 ∧ g.2.Relisted f.2) gs fs := by
  refine ⟨fun h => ?_, ?_⟩
  · cases h with
    | same => exact ⟨es, es, rfl, .refl es, List.forall₂_same.2 fun e _ => ⟨rfl, .same e.2⟩⟩
    | map hp hk hv => exact ⟨_, _, rfl, hp, forall₂_pairs_iff.2 ⟨hk, hv⟩⟩
  · rintro ⟨fs, gs, rfl, hp, h⟩
    obtain ⟨hk, hv⟩ := forall₂_pairs_iff.1 h
    exact .map hp hk hv

theorem relisted_scalar_iff {v : Value} {q : Plain} : (scalar v).Relisted q ↔ q = scalar v := by
  refine ⟨fun h => ?_, fun h => h ▸ .same _⟩
  cases h
  rfl

end Plain

namespace Table

variable {α : Type} {t t' : Table α}

theorem find?_eq_of_perm (h : t.keys.Nodup) (hp : t.Perm t') (key : String) :
    t.find? key = t'.find? key := by
  have h' : t'.keys.Nodup := (hp.map fun e : String × α => e.1).nodup_iff.1 h
  ext v
  rw [Table.find?_eq_some_iff h, Table.find?_eq_some_iff h', hp.mem_iff]

theorem arrange_eq_of_perm (h : t.keys.Nodup) (hp : t.Perm t') (order : List String) :
    t.arrange order = t'.arrange order :=
  List.filterMap_congr fun key _ => by rw [find?_eq_of_perm h hp]

/-- Sorting by the strings or by their bytes gives the same, in whatever order the keys came. -/
theorem sortedKeys_eq_bytewise {keys : List String} (hp : t.keys.Perm keys) :
    t.sortedKeys = bytewise keys := by
  have hbytes : (fun a b : String => !decide (Text.utf8 b.toList < Text.utf8 a.toList)) =
      fun a b => !decide (b < a) := by
    funext a b
    rw [decide_eq_decide.2 Text.utf8_lt_utf8_iff]
  have hsorted : ∀ ks : List String,
      (ks.mergeSort fun a b => !decide (b < a)).Pairwise (· ≤ ·) := by
    intro ks
    refine (List.pairwise_mergeSort ?_ ?_ ks).imp ?_
    · intro a b c
      simp only [Bool.not_eq_true', decide_eq_false_iff_not, not_lt]
      exact le_trans
    · intro a b
      simp only [Bool.or_eq_true, Bool.not_eq_true', decide_eq_false_iff_not, not_lt]
      exact le_total a b
    · intro a b
      simp only [Bool.not_eq_true', decide_eq_false_iff_not, not_lt, imp_self]
  unfold sortedKeys bytewise
  rw [hbytes]
  refine List.Perm.eq_of_pairwise (fun a b _ _ => le_antisymm) (hsorted _) (hsorted _) ?_
  exact (List.mergeSort_perm _ _).trans (hp.trans (List.mergeSort_perm _ _).symm)

end Table

namespace Value

theorem sortKeys_document (d : Document) :
    (document d).sortKeys = document (Document.sortKeys d) := rfl

theorem toJson_sortKeys (d : Document) : d.sortKeys.toJson =
    .object (Table.arrange (d.entries.map fun e => (e.1, e.2.sortKeys.toJson))
      (bytewise d.order)) := by
  rw [Document.toJson, Document.sortKeys, entriesToJson_eq, sortKeysEntries_eq, List.map_map]
  rfl

theorem toJson_map_of_perm {d : Document} (hd : d.WellFormed) {cs : List (String × Value)}
    {fs : List (String × Plain)} (hcs : d.entries.Perm cs)
    (hfs : (cs.map fun c => (c.1, c.2.sortKeys.toJson)) = fs.map fun f => (f.1, f.2.toJson)) :
    (Plain.map fs).toJson = d.sortKeys.toJson := by
  have hkeys : (Table.keys fs).Perm d.order := by
    have hfirst : Table.keys cs = Table.keys fs := by
      have := congrArg (List.map Prod.fst) hfs
      rwa [List.map_map, List.map_map] at this
    have hentries : d.table.keys.Perm d.order :=
      (List.perm_ext_iff_of_nodup hd.nodup_keys hd.nodup_order).2 fun k => (hd.mem_order_iff k).symm
    rw [← hfirst]
    exact (hcs.symm.map _).trans hentries
  -- sorting the keys again, and looking them up in the listed entries, changes nothing
  have harrange : ∀ order, Table.arrange (cs.map fun c => (c.1, c.2.sortKeys.toJson)) order =
      Table.arrange (d.entries.map fun e => (e.1, e.2.sortKeys.toJson)) order := by
    intro order
    refine (Table.arrange_eq_of_perm ?_ (hcs.map _) order).symm
    rw [Table.keys, List.map_map]
    exact hd.nodup_keys
  rw [Plain.toJson, Plain.entriesToJson_eq, ← hfs, toJson_sortKeys, ← harrange,
    ← Table.sortedKeys_eq_bytewise hkeys]

theorem toJson_of_relisted : ∀ v : Value, v.WellFormed →
    ∀ p, v.flatten.Relisted p → p.toJson = v.sortKeys.toJson := by
  intro v
  induction v using Value.induction with
  | h v ih =>
    intro hv p hp
    have hparts : ∀ w ∈ v.parts, ∀ p, w.flatten.Relisted p → p.toJson = w.sortKeys.toJson :=
      fun w hw => ih w hw (hv.of_mem_parts hw)
    cases v with
    | array items =>
      rw [flatten_array] at hp
      obtain ⟨qs, rfl, hqs⟩ := Plain.relisted_list_iff.1 hp
      rw [List.forall₂_map_left_iff] at hqs
      have hitems : (items.map fun w => w.sortKeys.toJson) = qs.map Plain.toJson :=
        map_eq_map_iff_forall₂.2 (forall₂_imp_of_mem
          (fun w hw q _ hq => (hparts w hw q hq).symm) hqs)
      rw [Plain.toJson, Plain.itemsToJson_eq, sortKeys, sortKeysItems_eq, toJson_array,
        List.map_map, ← hitems]
      rfl
    | document d =>
      have hd := hv d .self
      obtain ⟨fs, gs, rfl, hperm, hfs⟩ := Plain.relisted_map_iff.1 hp
      -- the entries in the order in which they are listed
      rw [Value.flattenEntries_eq, map_perm_iff] at hperm
      obtain ⟨cs, hcs, rfl⟩ := hperm
      rw [List.forall₂_map_left_iff] at hfs
      have hentries : (cs.map fun c => (c.1, c.2.sortKeys.toJson)) =
          fs.map fun f => (f.1, f.2.toJson) := by
        refine map_eq_map_iff_forall₂.2 (forall₂_imp_of_mem (fun c hc f _ hf => ?_) hfs)
        have hvalue : c.2 ∈ d.values := OrderedMap.mem_values_of_mem
          (hd.items_perm_entries.mem_iff.2 (hcs.mem_iff.2 hc))
        rw [hf.1, hparts c.2 hvalue f.2 hf.2]
      exact toJson_map_of_perm hd hcs hentries
    | _ =>
      rw [Plain.relisted_scalar_iff.1 hp]
      rfl

theorem rearranged_sortKeys : ∀ v : Value, v.WellFormed → v.Rearranged v.sortKeys := by
  intro v
  induction v using Value.induction with
  | h v ih =>
    intro hv
    have hparts : ∀ w ∈ v.parts, w.Rearranged w.sortKeys :=
      fun w hw => ih w hw (hv.of_mem_parts hw)
    cases v with
    | array items =>
      rw [sortKeys, sortKeysItems_eq, rearranged_array_iff, List.forall₂_map_right_iff]
      exact List.forall₂_same.2 hparts
    | document d =>
      rw [sortKeys_document]
      refine rearranged_document_iff.2 ⟨Table.arrange d.entries (bytewise d.order), ?_, ?_⟩
      · exact (List.mergeSort_perm _ _).symm.filterMap _
      · have hitems : (Document.sortKeys d).items =
            (Table.arrange d.entries (bytewise d.order)).map fun p => (p.1, p.2.sortKeys) := by
          rw [← Table.arrange_map, ← sortKeysEntries_eq]
          rfl
        rw [hitems, List.forall₂_map_right_iff]
        refine List.forall₂_same.2 fun p hp => ⟨rfl, hparts p.2 ?_⟩
        refine OrderedMap.mem_values_of_mem ?_
        exact (hv d .self).items_perm_entries.mem_iff.2 (Table.mem_of_mem_arrange hp)
    | _ => exact .same _

theorem toJson_flatten {v : Value} (hv : v.WellFormed) : v.flatten.toJson = v.sortKeys.toJson :=
  toJson_of_relisted v hv _ (.same _)

end Value

/-- A plain tree is written as the value that it was made from, its keys in the order of their bytes
as far as documents and arrays lead. What the program shows of a document without its order does not
depend on how tables list their entries, nor on the order of the pairs there. -/
theorem flat_rendering :
    (∀ v : Value, v.WellFormed →
        v.Rearranged v.sortKeys ∧ v.flatten.toJson = v.sortKeys.toJson)
      ∧ ∀ d : Document, (Value.document d).WellFormed →
        (Plain.map d.flatten).toJson = d.sortKeys.toJson
          ∧ ∀ options : DecodeOptions, options.flat = true →
            (∀ p, (Plain.map d.flatten).Relisted p → (Command.decode options).render d =
                (if options.compact then p.toJson.compact else p.toJson.pretty) ++ "\n")
              ∧ ∀ e : Document, (Value.document e).WellFormed →
                (Value.document d).Rearranged (.document e) →
                (Command.decode options).render d = (Command.decode options).render e := by
  refine ⟨fun v hv => ⟨v.rearranged_sortKeys hv, v.toJson_flatten hv⟩, fun d hd => ?_⟩
  refine ⟨Value.toJson_flatten hd, fun options hflat => ⟨fun p hp => ?_, fun e he h => ?_⟩⟩
  · have hp' : p.toJson = (Plain.map d.flatten).toJson :=
      (Value.toJson_of_relisted _ hd p hp).trans (Value.toJson_flatten hd).symm
    simp only [Command.render, hflat, if_true, hp']
  · have htable : (Plain.map d.flatten).toJson = (Plain.map e.flatten).toJson :=
      congrArg Plain.toJson ((Value.flatten_eq_iff_rearranged _ _ hd he).2 h)
    simp only [Command.render, hflat, if_true, htable]

/-- A reference keeps the order in its identifier, where the pairs around it are sorted. -/
theorem flat_rendering_reference :
    (Command.decode { flat := true }).render
        (.ofPairs [("b", .reference "c" (.document (.ofPairs [("y", .null), ("x", .null)]))),
          ("a", .null)]) =
      (Command.decode { flat := true }).render
        (.ofPairs [("a", .null),
          ("b", .reference "c" (.document (.ofPairs [("y", .null), ("x", .null)])))]) := by
  have hnull : Value.WellFormed .null := Value.wellFormed_iff.2 ⟨nofun, nofun⟩
  have href : Value.WellFormed
      (.reference "c" (.document (.ofPairs [("y", .null), ("x", .null)]))) :=
    Value.wellFormed_iff.2 ⟨nofun, fun w hw =>
      List.mem_singleton.1 hw ▸ Value.wellFormed_pair "y" "x" hnull hnull⟩
  exact ((flat_rendering.2 _ (Value.wellFormed_pair "b" "a" href hnull)).2 _ rfl).2 _
    (Value.wellFormed_pair "a" "b" hnull href)
    (Value.rearranged_swap (by decide) (.same _) (.same _))

end TypedDoc

/-!
# Tables

A table holds values by key and has no order of its own: its entries are kept in ascending order
of their keys, each key once, so that tables with the same contents are the same list. The order
of strings is that of their code points, which is also that of their bytes in UTF-8.
-/

namespace TypedDoc

/-- Entries in ascending order of their keys. -/
abbrev Table (α : Type) := List (String × α)

namespace Table

variable {α β : Type}

/-- Every key is less than those after it. -/
def Ascending (t : Table α) : Prop := t.Pairwise fun a b => a.1 < b.1

/-- The keys, in ascending order. -/
def keys (t : Table α) : List String := t.map (·.1)

/-- The keys in ascending order, in whatever order the entries are listed. -/
def sortedKeys (t : Table α) : List String := t.keys.mergeSort fun a b => !decide (b < a)

/-- The value of a key. -/
def find? (t : Table α) (key : String) : Option α :=
  match t with
  | [] => none
  | (k, v) :: rest => if k = key then some v else find? rest key

/-- Whether a key has a value. -/
def contains (t : Table α) (key : String) : Bool := (t.find? key).isSome

/-- Gives a key a value, in place of the one that it had. -/
def insert (t : Table α) (key : String) (value : α) : Table α :=
  match t with
  | [] => [(key, value)]
  | (k, v) :: rest =>
    if k = key then (key, value) :: rest
    else if key < k then (key, value) :: (k, v) :: rest
    else (k, v) :: insert rest key value

/-- Takes a key and its value out. -/
def erase (t : Table α) (key : String) : Table α :=
  match t with
  | [] => []
  | (k, v) :: rest => if k = key then rest else (k, v) :: erase rest key

/-- The table of some pairs; of pairs with the same key the last one counts. -/
def ofPairs (ps : List (String × α)) : Table α := ps.foldl (fun t p => t.insert p.1 p.2) []

/-- The pairs of the listed keys, in the order of the list. Keys without a value are left out. -/
def arrange (t : Table α) (order : List String) : List (String × α) :=
  order.filterMap fun k => (t.find? k).map (k, ·)

theorem find?_insert (t : Table α) (key : String) (value : α) (k : String) :
    (t.insert key value).find? k = if key = k then some value else t.find? k := by
  induction t with
  | nil => rfl
  | cons e t ih =>
    obtain ⟨k', v⟩ := e
    simp only [insert]
    split
    · next h => subst h; simp only [find?]; split <;> rfl
    · next h =>
      split
      · rfl
      · simp only [find?, ih]
        split
        · next h' => rw [if_neg (fun e => h (h'.trans e.symm))]
        · rfl

theorem find?_eq_none_of_lt {t : Table α} {key : String} (h : ∀ e ∈ t, key < e.1) :
    t.find? key = none := by
  induction t with
  | nil => rfl
  | cons e t ih =>
    have he := h e List.mem_cons_self
    simp only [find?]
    rw [if_neg (fun e' => String.lt_irrefl key (by rw [e'] at he; exact he))]
    exact ih fun e he => h e (List.mem_cons_of_mem _ he)

theorem find?_erase {t : Table α} (h : t.Ascending) (key k : String) :
    (t.erase key).find? k = if key = k then none else t.find? k := by
  induction t with
  | nil => simp [erase, find?]
  | cons e t ih =>
    obtain ⟨k', v⟩ := e
    obtain ⟨hlt, h⟩ := List.pairwise_cons.1 h
    simp only [erase]
    split
    · next hk =>
      subst hk
      split
      · next hk => subst hk; exact find?_eq_none_of_lt hlt
      · next hk => simp only [find?]; rw [if_neg hk]
    · next hk =>
      simp only [find?, ih h]
      split
      · next hk' => rw [if_neg (fun e => hk (hk'.trans e.symm))]
      · rfl

theorem mem_keys_iff (t : Table α) (key : String) : key ∈ t.keys ↔ (t.find? key).isSome := by
  induction t with
  | nil => simp [keys, find?]
  | cons e t ih =>
    obtain ⟨k, v⟩ := e
    simp only [keys, List.map_cons, List.mem_cons, find?]
    split
    · next h => simp [h]
    · next h =>
      rw [← ih]
      constructor
      · rintro (rfl | h')
        · exact absurd rfl h
        · exact h'
      · exact .inr

theorem mem_keys_insert (t : Table α) (key : String) (value : α) (k : String) :
    k ∈ (t.insert key value).keys ↔ k = key ∨ k ∈ t.keys := by
  rw [mem_keys_iff, mem_keys_iff, find?_insert]
  split
  · next h => simp [h]
  · next h => simp [Ne.symm h]

theorem mem_keys_erase {t : Table α} (h : t.Ascending) (key k : String) :
    k ∈ (t.erase key).keys ↔ k ≠ key ∧ k ∈ t.keys := by
  rw [mem_keys_iff, mem_keys_iff, find?_erase h]
  split
  · next h => simp [h]
  · next h => simp [Ne.symm h]

theorem mem_insert {t : Table α} {key : String} {value : α} {e : String × α}
    (h : e ∈ t.insert key value) : e = (key, value) ∨ e ∈ t := by
  induction t with
  | nil => exact .inl (List.mem_singleton.1 h)
  | cons e' t ih =>
    obtain ⟨k, v⟩ := e'
    simp only [insert] at h
    split at h
    · rcases List.mem_cons.1 h with rfl | h
      · exact .inl rfl
      · exact .inr (List.mem_cons_of_mem _ h)
    · split at h
      · rcases List.mem_cons.1 h with rfl | h
        · exact .inl rfl
        · exact .inr h
      · rcases List.mem_cons.1 h with rfl | h
        · exact .inr List.mem_cons_self
        · exact (ih h).imp_right (List.mem_cons_of_mem _)

theorem Ascending.insert {t : Table α} (h : t.Ascending) (key : String) (value : α) :
    (t.insert key value).Ascending := by
  induction t with
  | nil => exact List.pairwise_singleton _ _
  | cons e t ih =>
    obtain ⟨k, v⟩ := e
    obtain ⟨hlt, ht⟩ := List.pairwise_cons.1 h
    simp only [Table.insert]
    split
    · next hk => subst hk; exact List.pairwise_cons.2 ⟨hlt, ht⟩
    · next hk =>
      split
      · next hlt' =>
        refine List.pairwise_cons.2 ⟨fun e he => ?_, h⟩
        rcases List.mem_cons.1 he with rfl | he
        · exact hlt'
        · exact String.lt_trans hlt' (hlt e he)
      · next hlt' =>
        refine List.pairwise_cons.2 ⟨fun e he => ?_, ih ht⟩
        rcases mem_insert he with rfl | he
        · show k < key
          exact String.not_le.1 fun h' => hk (String.le_antisymm (String.not_lt.1 hlt') h')
        · exact hlt e he

theorem erase_sublist (t : Table α) (key : String) : (t.erase key).Sublist t := by
  induction t with
  | nil => exact .slnil
  | cons e t ih =>
    obtain ⟨k, v⟩ := e
    simp only [erase]
    split
    · exact List.sublist_cons_self _ _
    · exact ih.cons_cons _

theorem Ascending.erase {t : Table α} (h : t.Ascending) (key : String) :
    (t.erase key).Ascending := List.Pairwise.sublist (erase_sublist t key) h

theorem keys_arrange {t : Table α} {order : List String} (h : ∀ k ∈ order, k ∈ t.keys) :
    (t.arrange order).map (·.1) = order := by
  induction order with
  | nil => rfl
  | cons k order ih =>
    obtain ⟨v, hv⟩ := Option.isSome_iff_exists.1 ((mem_keys_iff t k).1 (h k List.mem_cons_self))
    simp only [arrange, List.filterMap_cons, hv, Option.map_some, List.map_cons]
    exact congrArg (k :: ·) (ih fun k hk => h k (List.mem_cons_of_mem _ hk))

end Table

end TypedDoc

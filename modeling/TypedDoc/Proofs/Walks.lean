import Mathlib.Logic.Function.Iterate
import TypedDoc.Proofs.Parts

/-!
# Walks over the pairs

A cursor whose keys all have values stands for the pairs still to come (`Cursor.rest`). A step from
either end takes the pair at that end, so after any steps the pairs got from the front, those still
to come and those got from the back make up the pairs of the map (`Cursor.walk_splits`). Taking the
first pair out of a map leaves the others, however it is done. So every way to go through a document
gives its pairs, each once and in order (`run_traversals`).
-/

namespace TypedDoc

namespace Table

variable {α : Type} {t : Table α} {key : String} {v : α}

theorem arrange_cons (h : t.find? key = some v) (order : List String) :
    t.arrange (key :: order) = (key, v) :: t.arrange order := by
  simp [arrange, h]

theorem arrange_concat (h : t.find? key = some v) (order : List String) :
    t.arrange (order ++ [key]) = t.arrange order ++ [(key, v)] := by
  simp [arrange, h]

end Table

namespace OrderedMap

variable {α : Type}

namespace Cursor

/-- The pairs still to come. -/
def rest (c : Cursor α) : List (String × α) := c.table.arrange c.ahead

/-- Every key that is ahead has a value. -/
def Full (c : Cursor α) : Prop := ∀ key ∈ c.ahead, ∃ v, c.table.find? key = some v

/-- A step from the front or from the back. -/
def step (c : Cursor α) (back : Bool) : Option (String × α) × Cursor α :=
  if back then c.nextBack else c.next

/-- The answers to some steps, each with the end that it came from, and the cursor after them. -/
def walk : Cursor α → List Bool → List (Bool × Option (String × α)) × Cursor α
  | c, [] => ([], c)
  | c, back :: calls =>
    ((back, (c.step back).1) :: ((c.step back).2.walk calls).1, ((c.step back).2.walk calls).2)

/-- The pairs that came from one end. -/
def got (back : Bool) (answers : List (Bool × Option (String × α))) : List (String × α) :=
  answers.filterMap fun a => if a.1 = back then a.2 else none

variable {c : Cursor α}

theorem keys_rest (hc : c.Full) : c.rest.map (·.1) = c.ahead :=
  Table.keys_arrange fun key hk =>
    (Table.mem_keys_iff _ _).2 (Option.isSome_iff_exists.2 (hc key hk))

theorem length_rest (hc : c.Full) : c.rest.length = c.size := by
  rw [size, ← keys_rest hc, List.length_map]

/-- A step from the front takes the first of the pairs to come, if there is one. -/
theorem next_cases (hc : c.Full) : (c.rest = [] ∧ c.next = (none, c))
    ∨ ∃ p c', c.next = (some p, c') ∧ c.rest = p :: c'.rest ∧ c'.Full := by
  rcases hk : c.ahead with _ | ⟨key, keys⟩
  · exact .inl ⟨by simp [rest, hk, Table.arrange], by simp [next, hk]⟩
  · obtain ⟨v, hv⟩ := hc key (by simp [hk])
    refine .inr ⟨(key, v), { c with ahead := keys }, by simp [next, hk, hv], ?_, ?_⟩
    · rw [rest, hk, Table.arrange_cons hv]
      rfl
    · intro k h
      exact hc k (by simp [hk, show k ∈ keys from h])

theorem nextBack_cases (hc : c.Full) : (c.rest = [] ∧ c.nextBack = (none, c))
    ∨ ∃ p c', c.nextBack = (some p, c') ∧ c.rest = c'.rest ++ [p] ∧ c'.Full := by
  rcases hk : c.ahead.eq_nil_or_concat' with h | ⟨keys, key, h⟩
  · exact .inl ⟨by simp [rest, h, Table.arrange], by simp [nextBack, h]⟩
  · obtain ⟨v, hv⟩ := hc key (by simp [h])
    refine .inr ⟨(key, v), { c with ahead := keys }, by simp [nextBack, h, hv], ?_, ?_⟩
    · rw [rest, h, Table.arrange_concat hv]
      rfl
    · intro k hk
      exact hc k (by simp [h, show k ∈ keys from hk])

theorem next_fst (hc : c.Full) : c.next.1 = c.rest.head? := by
  rcases next_cases hc with ⟨hr, hn⟩ | ⟨p, c', hn, hr, -⟩ <;> simp [hn, hr]

theorem nextBack_fst (hc : c.Full) : c.nextBack.1 = c.rest.getLast? := by
  rcases nextBack_cases hc with ⟨hr, hn⟩ | ⟨p, c', hn, hr, -⟩ <;> simp [hn, hr]

theorem step_cases (hc : c.Full) (back : Bool) : (c.rest = [] ∧ c.step back = (none, c))
    ∨ ∃ p c', c.step back = (some p, c')
      ∧ (c.rest = if back then c'.rest ++ [p] else p :: c'.rest) ∧ c'.Full := by
  cases back
  · exact next_cases hc
  · exact nextBack_cases hc

/-- What was got from the front, what is still to come and what was got from the back, put together,
are the pairs at the start. -/
theorem walk_splits : ∀ (calls : List Bool) {c : Cursor α}, c.Full → (c.walk calls).2.Full
    ∧ c.rest = got false (c.walk calls).1 ++ (c.walk calls).2.rest
      ++ (got true (c.walk calls).1).reverse
  | [], c, hc => ⟨hc, by simp [walk, got]⟩
  | back :: calls, c, hc => by
    rcases step_cases hc back with ⟨-, hn⟩ | ⟨p, c', hn, hr, hc'⟩
    · have ih := walk_splits calls hc
      cases back <;> simpa [walk, got, hn] using ih
    · obtain ⟨hw, hs⟩ := walk_splits calls hc'
      refine ⟨by simpa [walk, hn] using hw, ?_⟩
      rw [hr, hs]
      cases back <;> simp [walk, got, hn]

/-- A cursor without pairs to come stays as it is. -/
theorem walk_of_rest_nil (hc : c.Full) (hr : c.rest = []) (calls : List Bool) :
    c.walk calls = (calls.map (·, none), c) := by
  have hstep : ∀ back, c.step back = (none, c) := by
    intro back
    rcases step_cases hc back with ⟨-, hn⟩ | ⟨p, c', -, hr', -⟩
    · exact hn
    · cases back <;> simp [hr] at hr'
  induction calls with
  | nil => rfl
  | cons back calls ih => simp [walk, hstep, ih]

end Cursor

namespace WellFormed

variable {m : OrderedMap α}

theorem full_cursor (h : m.WellFormed) : m.cursor.Full := fun _ hk => h.get?_of_mem hk

/-- The values are what the keys are looked up to be. -/
theorem map_some_values (h : m.WellFormed) : m.values.map some = m.keys.map m.get? := by
  rw [values, keys, ← h.keys_items, List.map_map, List.map_map]
  exact List.map_congr_left fun p hp => (Table.find?_of_mem_arrange hp).symm

theorem takeFirst_fst (h : m.WellFormed) : m.takeFirst.1 = m.items.head? := by
  rcases h.takeFirst_cases with ⟨ht, hi⟩ | ⟨p, m', ht, hi⟩ <;> simp [ht, hi]

theorem items_takeFirst (h : m.WellFormed) : m.takeFirst.2.items = m.items.tail := by
  rcases h.takeFirst_cases with ⟨ht, hi⟩ | ⟨p, m', ht, hi⟩ <;> simp [ht, hi]

theorem items_iterate (h : m.WellFormed) (k : ℕ) :
    ((fun m : OrderedMap α => m.takeFirst.2)^[k] m).WellFormed
      ∧ ((fun m : OrderedMap α => m.takeFirst.2)^[k] m).items = m.items.drop k := by
  induction k with
  | zero => exact ⟨h, rfl⟩
  | succ k ih =>
    obtain ⟨hw, hi⟩ := ih
    rw [Function.iterate_succ_apply', hw.items_takeFirst, hi, List.tail_drop]
    exact ⟨hw.takeFirst, rfl⟩

/-- The first pair taken out again and again. -/
theorem takeFirst_iterate (h : m.WellFormed) (k : ℕ) :
    let m' := (fun m : OrderedMap α => m.takeFirst.2)^[k] m
    m'.items = m.items.drop k ∧ m'.size = m.items.length - k ∧ m'.takeFirst.1 = m.items[k]? := by
  intro m'
  obtain ⟨hw, hi⟩ := h.items_iterate k
  refine ⟨hi, ?_, ?_⟩
  · rw [← hw.length_items, hi, List.length_drop]
  · rw [hw.takeFirst_fst, hi, List.head?_drop]

end WellFormed

theorem popItem_eq (m : OrderedMap α) :
    m.popItem = (m.takeFirst.1.elim (.error .emptyContainer) .ok, m.takeFirst.2) := by
  unfold popItem
  rcases m.takeFirst with ⟨_ | p, m'⟩ <;> rfl

theorem drain_go : ∀ (n : ℕ) {m : OrderedMap α}, m.WellFormed → m.size = n → ∀ k,
    (drain.go n m)[k]? = m.items[k]?.map fun p => (p, n - (k + 1))
  | 0, m, h, hn, k => by
    rw [← h.length_items, List.length_eq_zero_iff] at hn
    simp [drain.go, hn]
  | n + 1, m, h, hn, k => by
    have hrest := h.takeFirst
    rcases h.takeFirst_cases with ⟨ht, hi⟩ | ⟨p, m', ht, hi⟩
    · simp [drain.go, ht, hi]
    · rw [ht] at hrest
      have hn' : m'.size = n := by
        rw [← h.length_items, hi, List.length_cons, hrest.length_items] at hn
        exact Nat.succ_inj.1 hn
      rcases k with _ | k
      · simp [drain.go, ht, hi, hn']
      · simp [drain.go, ht, hi, drain_go n hrest hn' k]

open Cursor in
/-- What a cursor over a map has given after some steps, and what it can still give. -/
theorem WellFormed.walk_cursor {m : OrderedMap α} (h : m.WellFormed) (calls : List Bool) :
    let front := got false (m.cursor.walk calls).1
    let back := got true (m.cursor.walk calls).1
    let c := (m.cursor.walk calls).2
    front = m.items.take front.length ∧ back = m.items.reverse.take back.length
      ∧ front.length + c.size + back.length = m.items.length
      ∧ (0 < c.size → c.next.1 = m.items[front.length]?
        ∧ c.nextBack.1 = m.items.reverse[back.length]?)
      ∧ (c.size = 0 → ∀ more, c.walk more = (more.map (·, none), c)) := by
  intro front back c
  have hc : c.Full := (walk_splits calls h.full_cursor).1
  have hitems : m.items = front ++ c.rest ++ back.reverse := (walk_splits calls h.full_cursor).2
  have hreverse : m.items.reverse = back ++ c.rest.reverse ++ front.reverse := by simp [hitems]
  have hsize : c.rest.length = c.size := length_rest hc
  refine ⟨by simp [hitems], by simp [hreverse], ?_, fun hpos => ?_, fun hzero => ?_⟩
  · simp [hitems, hsize, Nat.add_assoc]
  · rw [next_fst hc, nextBack_fst hc, hreverse, hitems]
    have hne : c.rest ≠ [] := List.length_pos_iff.1 (hsize ▸ hpos)
    obtain ⟨p, ps, hp⟩ := List.exists_cons_of_ne_nil hne
    obtain ⟨qs, q, hq⟩ := (List.eq_nil_or_concat' c.rest).resolve_left hne
    refine ⟨by simp [hp], by simp [hq]⟩
  · exact walk_of_rest_nil hc (List.length_eq_zero_iff.1 (hsize.trans hzero))

end OrderedMap

open OrderedMap Cursor in
/-- All ways through the pairs of a document that a program holds. A cursor, moved from either end
in any way, has given the first pairs to the front and the last ones, from the last, to the back; its
size is the number of the others, it gives the next of them to either end, and nothing once there
are none. The keys and the values are those of the pairs. The first pair taken out again and again,
all pairs at once, or an item popped as long as there is one: each gives the pairs in order and
leaves those behind it. -/
theorem run_traversals (as : List Action) (i : ℕ) :
    let d : Document := (Representation.documents.run as).2 i
    let n := d.items.length
    (∀ calls, let front := got false (d.cursor.walk calls).1
        let back := got true (d.cursor.walk calls).1
        let c := (d.cursor.walk calls).2
        front = d.items.take front.length ∧ back = d.items.reverse.take back.length
          ∧ front.length + back.length ≤ n ∧ c.size = n - front.length - back.length
          ∧ (front.length + back.length < n → c.next.1 = d.items[front.length]?
            ∧ c.nextBack.1 = d.items.reverse[back.length]?)
          ∧ (front.length + back.length = n → ∀ more,
            (c.walk more).1 = more.map (·, none) ∧ (c.walk more).2.size = 0))
      ∧ d.keys = d.items.map (·.1) ∧ d.values = d.items.map (·.2)
      ∧ d.values.map some = d.keys.map d.get?
      ∧ d.keys.reverse = d.items.reverse.map (·.1) ∧ d.values.reverse = d.items.reverse.map (·.2)
      ∧ (∀ k, d.drain[k]? = d.items[k]?.map fun p => (p, n - (k + 1)))
      ∧ (∀ k, let e := (fun e : Document => e.takeFirst.2)^[k] d
        e.items = d.items.drop k ∧ e.size = n - k ∧ e.takeFirst.1 = d.items[k]?)
      ∧ ∀ k, let e := (fun e : Document => e.popItem.2)^[k] d
        e.items = d.items.drop k ∧ e.size = n - k
          ∧ e.popItem.1 = d.items[k]?.elim (.error .emptyContainer) .ok := by
  intro d n
  have h : d.WellFormed := wellFormed_run as i
  have hpop : (fun e : Document => e.popItem.2) = fun e => e.takeFirst.2 :=
    funext fun e => by rw [popItem_eq]
  refine ⟨fun calls => ?_, h.keys_items.symm, rfl, h.map_some_values, ?_, List.map_reverse.symm,
    fun k => ?_, h.takeFirst_iterate, fun k => ?_⟩
  · intro front back c
    obtain ⟨hfront, hback, hsum, hnext, hend⟩ := h.walk_cursor calls
    change front.length + c.size + back.length = n at hsum
    refine ⟨hfront, hback, by omega, by omega, fun hlt => ?_, fun heq more => ?_⟩
    · have hpos : 0 < c.size := by
        change front.length + back.length < n at hlt
        omega
      exact hnext hpos
    · have hzero : c.size = 0 := by omega
      rw [hend hzero more]
      exact ⟨rfl, hzero⟩
  · rw [keys, ← h.keys_items, List.map_reverse]
  · show d.drain[k]? = d.items[k]?.map fun p => (p, d.items.length - (k + 1))
    rw [h.length_items]
    exact drain_go d.size h rfl k
  · obtain ⟨hi, hsize, hfirst⟩ := h.takeFirst_iterate k
    rw [hpop]
    exact ⟨hi, hsize, by rw [popItem_eq, hfirst]⟩

end TypedDoc

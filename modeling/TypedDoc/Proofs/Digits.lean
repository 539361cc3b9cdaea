import Mathlib.Algebra.Group.Int.Defs
import Mathlib.Data.List.Basic
import TypedDoc.Numeral.Integer
import TypedDoc.Proofs.Outcome

/-!
# Decimal digits

Reading digits one after another up to a limit gives the number that they denote in base ten, and
it fails exactly if a character is no digit or the number is past the limit: the number only grows
on the way, so no digit is refused too early (`accumulate_eq_ok_iff`). The positions in the names
of an array's items are read in this way (`readIndex?_eq_some_iff`), and so are integers, which may
have a sign (`Denotes`): a text is read as an integer of 64 bits exactly if it denotes that integer
(`read_eq_ok_iff`). The two signs have limits of their own, which are the ends of the range.
-/

namespace TypedDoc.Numeral.Integer

/-- The number that digits after `n` denote. -/
def number (n : Nat) (cs : List Char) : Nat := cs.foldl (fun n c => 10 * n + (c.toNat - 48)) n

/-- At least one character, and all of them digits. -/
def IsDigits (cs : List Char) : Prop := cs ≠ [] ∧ ∀ c ∈ cs, '0' ≤ c ∧ c ≤ '9'

/-- A name in digits, with or without a plus sign, that denotes a position of 64 bits. -/
def IsPosition (name : String) (i : Nat) : Prop :=
  ∃ ds, (name.toList = ds ∨ name.toList = '+' :: ds) ∧ IsDigits ds ∧ number 0 ds = i ∧ i < 1 <<< 64

theorem digit?_eq_some_iff {c : Char} {d : Nat} :
    digit? c = some d ↔ ('0' ≤ c ∧ c ≤ '9') ∧ c.toNat - 48 = d := by
  unfold digit?
  split_ifs with h
  · simp [h]
  · simp [h]

theorem le_number (cs : List Char) (n : Nat) : n ≤ number n cs := by
  induction cs generalizing n with
  | nil => exact Nat.le_refl n
  | cons c cs ih =>
    have := ih (10 * n + (c.toNat - 48))
    simp only [number, List.foldl_cons] at this ⊢
    omega

theorem accumulate_eq_ok_iff {limit : Nat} {excess : Fault} {m : Nat} (cs : List Char) {n : Nat}
    (hn : n ≤ limit) : accumulate limit excess n cs = .ok m ↔
      (∀ c ∈ cs, '0' ≤ c ∧ c ≤ '9') ∧ number n cs = m ∧ m ≤ limit := by
  induction cs generalizing n with
  | nil =>
    simp only [accumulate, Except.ok.injEq, number, List.foldl_nil, List.not_mem_nil,
      false_implies, implies_true, true_and]
    exact ⟨fun h => ⟨h, h ▸ hn⟩, fun h => h.1⟩
  | cons c cs ih =>
    have hle := le_number cs (10 * n + (c.toNat - 48))
    have hnum : number n (c :: cs) = number (10 * n + (c.toNat - 48)) cs := rfl
    rw [List.forall_mem_cons, hnum]
    simp only [accumulate]
    split
    · rename_i hd
      refine ⟨fun h => by simp at h, fun ⟨⟨hc, _⟩, _⟩ => ?_⟩
      rw [digit?_eq_some_iff.2 ⟨hc, rfl⟩] at hd
      cases hd
    · rename_i d hd
      obtain ⟨hc, rfl⟩ := digit?_eq_some_iff.1 hd
      split_ifs with hlim
      · rw [ih hlim]
        exact ⟨fun ⟨h1, h2, h3⟩ => ⟨⟨hc, h1⟩, h2, h3⟩, fun ⟨⟨_, h1⟩, h2, h3⟩ => ⟨h1, h2, h3⟩⟩
      · refine ⟨fun h => by simp at h, fun ⟨_, h2, h3⟩ => ?_⟩
        omega

theorem magnitude_eq_ok_iff {limit : Nat} {excess : Fault} {m : Nat} {cs : List Char} :
    magnitude limit excess cs = .ok m ↔ IsDigits cs ∧ number 0 cs = m ∧ m ≤ limit := by
  unfold magnitude IsDigits
  split
  · simp
  · rename_i hne
    rw [accumulate_eq_ok_iff cs (Nat.zero_le limit)]
    exact ⟨fun ⟨h1, h2⟩ => ⟨⟨hne, h1⟩, h2⟩, fun ⟨⟨_, h1⟩, h2⟩ => ⟨h1, h2⟩⟩

theorem not_isDigits_plus (ds : List Char) : ¬ IsDigits ('+' :: ds) := fun h =>
  absurd (h.2 '+' List.mem_cons_self).1 (by decide)

/-- A name is read as a position exactly if it is one. -/
theorem readIndex?_eq_some_iff {name : String} {i : Nat} :
    readIndex? name.toList = some i ↔ IsPosition name i := by
  have hmag : ∀ ds, (magnitude ((1 <<< 64) - 1) .tooLarge ds).toOption = some i ↔
      IsDigits ds ∧ number 0 ds = i ∧ i < 1 <<< 64 := by
    intro ds
    have hlt : i ≤ (1 <<< 64) - 1 ↔ i < 1 <<< 64 := by omega
    have hm : magnitude ((1 <<< 64) - 1) .tooLarge ds = .ok i ↔ _ := magnitude_eq_ok_iff
    rw [← hlt, ← hm]
    rcases magnitude ((1 <<< 64) - 1) .tooLarge ds with e | n <;> simp [Except.toOption]
  unfold readIndex? IsPosition
  split
  · rename_i ds hds
    rw [hmag]
    refine ⟨?_, ?_⟩
    · exact fun h => ⟨ds, .inr hds, h⟩
    · rintro ⟨es, hes | hes, h⟩
      · exact absurd (hes ▸ h.1) (hds ▸ not_isDigits_plus ds)
      · rw [hds] at hes
        exact (List.cons.inj hes).2 ▸ h
  · rename_i hds
    rw [hmag]
    refine ⟨?_, ?_⟩
    · exact fun h => ⟨_, .inl rfl, h⟩
    · rintro ⟨es, hes | hes, h⟩
      · exact hes ▸ h
      · exact absurd hes (hds es)

theorem IsPosition.unique {name : String} {i j : Nat} (hi : IsPosition name i)
    (hj : IsPosition name j) : i = j := by
  rw [← readIndex?_eq_some_iff] at hi hj
  exact Option.some.inj (hi.symm.trans hj)

theorem IsPosition.forall_lt_iff {name : String} {i n : Nat} (h : IsPosition name i) :
    (∀ j, IsPosition name j → j < n) ↔ i < n :=
  ⟨fun hall => hall i h, fun hi _ hj => h.unique hj ▸ hi⟩

/-! ## Integers as they are written -/

theorem isDigit_iff {c : Char} : c.isDigit = true ↔ '0' ≤ c ∧ c ≤ '9' := by
  simp [Char.isDigit, Char.le_def]

theorem isDigits_iff_all {cs : List Char} : IsDigits cs ↔ cs ≠ [] ∧ cs.all Char.isDigit = true := by
  simp only [IsDigits, List.all_eq_true, isDigit_iff]

instance : DecidablePred IsDigits := fun _ => decidable_of_iff _ isDigits_iff_all.symm

theorem isDigits_toDigits (n : Nat) : IsDigits (Nat.toDigits 10 n) :=
  ⟨Nat.toDigits_ne_nil, fun _ hc =>
    isDigit_iff.1 (Nat.isDigit_of_mem_toDigits (by decide) (by decide) hc)⟩

theorem number_toDigits (n : Nat) : number 0 (Nat.toDigits 10 n) = n :=
  Nat.ofDigitChars_ten_toDigits

theorem isPosition_toString {i : Nat} (h : i < 1 <<< 64) : IsPosition (toString i) i :=
  ⟨Nat.toDigits 10 i, .inl Nat.toList_repr, isDigits_toDigits i, number_toDigits i, h⟩

theorem toList_toString (n : Int) : (toString n).toList =
    if n < 0 then '-' :: Nat.toDigits 10 n.natAbs else Nat.toDigits 10 n.natAbs := by
  cases n with
  | ofNat m =>
    have hsign : ¬ Int.ofNat m < 0 := Int.not_lt.2 (Int.natCast_nonneg m)
    rw [if_neg hsign]
    exact Nat.toList_repr
  | negSucc m =>
    rw [if_pos (Int.negSucc_lt_zero m)]
    show ("-" ++ Nat.repr (m + 1)).toList = _
    rw [String.toList_append, Nat.toList_repr]
    rfl

/-- The integers that texts stand for in base ten. -/
inductive Denotes : List Char → Int → Prop
  | bare {ds : List Char} : IsDigits ds → Denotes ds (number 0 ds)
  | plus {ds : List Char} : IsDigits ds → Denotes ('+' :: ds) (number 0 ds)
  | minus {ds : List Char} : IsDigits ds → Denotes ('-' :: ds) (-(number 0 ds : Int))

theorem not_isDigits_minus (ds : List Char) : ¬ IsDigits ('-' :: ds) := fun h =>
  absurd (h.2 '-' List.mem_cons_self).1 (by decide)

section Cases

variable {cs ds : List Char} {m : Int}

theorem not_denotes_nil : ¬ Denotes [] m := by
  intro h
  cases h with
  | bare h => exact h.1 rfl

theorem denotes_minus_iff : Denotes ('-' :: ds) m ↔ IsDigits ds ∧ m = -(number 0 ds : Int) := by
  refine ⟨fun h => ?_, ?_⟩
  · cases h with
    | bare h => exact absurd h (not_isDigits_minus ds)
    | minus h => exact ⟨h, rfl⟩
  · rintro ⟨h, rfl⟩
    exact .minus h

theorem denotes_plus_iff : Denotes ('+' :: ds) m ↔ IsDigits ds ∧ m = number 0 ds := by
  refine ⟨fun h => ?_, ?_⟩
  · cases h with
    | bare h => exact absurd h (not_isDigits_plus ds)
    | plus h => exact ⟨h, rfl⟩
  · rintro ⟨h, rfl⟩
    exact .plus h

theorem denotes_bare_iff (hminus : ∀ ds, cs ≠ '-' :: ds) (hplus : ∀ ds, cs ≠ '+' :: ds) :
    Denotes cs m ↔ IsDigits cs ∧ m = number 0 cs := by
  refine ⟨fun h => ?_, ?_⟩
  · cases h with
    | bare h => exact ⟨h, rfl⟩
    | plus h => exact absurd rfl (hplus _)
    | minus h => exact absurd rfl (hminus _)
  · rintro ⟨h, rfl⟩
    exact .bare h

theorem Denotes.unique {n : Int} (hm : Denotes cs m) (hn : Denotes cs n) : m = n := by
  cases hm with
  | bare h =>
    cases hn with
    | bare => rfl
    | plus => exact absurd h (not_isDigits_plus _)
    | minus => exact absurd h (not_isDigits_minus _)
  | plus => exact (denotes_plus_iff.1 hn).2.symm
  | minus => exact (denotes_minus_iff.1 hn).2.symm

end Cases

theorem denotes_toString (n : Int) : Denotes (toString n).toList n := by
  have hdigits := isDigits_toDigits n.natAbs
  have hnumber := number_toDigits n.natAbs
  rw [toList_toString]
  split_ifs with hneg
  · exact denotes_minus_iff.2 ⟨hdigits, by omega⟩
  · have hn : (number 0 (Nat.toDigits 10 n.natAbs) : Int) = n := by omega
    have hbare := Denotes.bare hdigits
    rwa [hn] at hbare

theorem ofInt_eq_iff {m : Int} {n : Int64} (hlow : -2 ^ 63 ≤ m) (hhigh : m < 2 ^ 63) :
    Int64.ofInt m = n ↔ n.toInt = m := by
  rw [← Int64.toInt_inj, Int64.toInt_ofInt_of_le hlow hhigh, eq_comm]

/-- Digits under a sign that makes an integer of them. -/
theorem magnitude_bind_eq_ok_iff {limit : Nat} {excess : Fault} {ds : List Char} {f : Nat → Int}
    (hf : ∀ k, k ≤ limit ↔ -2 ^ 63 ≤ f k ∧ f k < 2 ^ 63) {n : Int64} :
    (magnitude limit excess ds >>= fun k => pure (Int64.ofInt (f k))) = .ok n ↔
      IsDigits ds ∧ n.toInt = f (number 0 ds) := by
  simp only [bind_eq_ok_iff, magnitude_eq_ok_iff, pure, Except.pure, Except.ok.injEq]
  refine ⟨?_, ?_⟩
  · rintro ⟨_, ⟨hdigits, rfl, hle⟩, h⟩
    obtain ⟨hlow, hhigh⟩ := (hf _).1 hle
    exact ⟨hdigits, (ofInt_eq_iff hlow hhigh).1 h⟩
  · rintro ⟨hdigits, h⟩
    have hrange : -2 ^ 63 ≤ f (number 0 ds) ∧ f (number 0 ds) < 2 ^ 63 :=
      h ▸ ⟨n.le_toInt, n.toInt_lt⟩
    exact ⟨_, ⟨hdigits, rfl, (hf _).2 hrange⟩, (ofInt_eq_iff hrange.1 hrange.2).2 h⟩

/-- A text is read as an integer exactly if it denotes it. -/
theorem read_eq_ok_iff {cs : List Char} {n : Int64} : read cs = .ok n ↔ Denotes cs n.toInt := by
  have hminus : ∀ k : Nat, k ≤ 1 <<< 63 ↔ -2 ^ 63 ≤ (-(k : Int)) ∧ (-(k : Int)) < 2 ^ 63 := by
    intro k
    omega
  have hplus : ∀ k : Nat, k ≤ (1 <<< 63) - 1 ↔ -2 ^ 63 ≤ (k : Int) ∧ (k : Int) < 2 ^ 63 := by
    intro k
    omega
  unfold read
  split
  · simp [not_denotes_nil]
  · rw [denotes_minus_iff]
    exact magnitude_bind_eq_ok_iff hminus
  · rw [denotes_plus_iff]
    exact magnitude_bind_eq_ok_iff hplus
  · rename_i _ hm hp
    rw [denotes_bare_iff hm hp]
    exact magnitude_bind_eq_ok_iff hplus

theorem exists_read_iff {cs : List Char} : (∃ n, read cs = .ok n) ↔
    ∃ m : Int, -2 ^ 63 ≤ m ∧ m ≤ 2 ^ 63 - 1 ∧ Denotes cs m := by
  simp only [read_eq_ok_iff]
  refine ⟨?_, ?_⟩
  · rintro ⟨n, h⟩
    exact ⟨n.toInt, n.le_toInt, Int.le_sub_one_of_lt n.toInt_lt, h⟩
  · rintro ⟨m, hlow, hhigh, h⟩
    exact ⟨Int64.ofInt m, by rwa [Int64.toInt_ofInt_of_le hlow (by omega)]⟩

/-- An integer is read back from its text. -/
theorem read_text (n : Int64) : read (text n).toList = .ok n :=
  read_eq_ok_iff.2 (denotes_toString n.toInt)

end TypedDoc.Numeral.Integer

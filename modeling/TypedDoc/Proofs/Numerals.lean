import Mathlib.Data.List.TakeWhile
import TypedDoc.Numeral.Layout
import TypedDoc.Proofs.Digits
import TypedDoc.Proofs.Rounding

/-!
# The text of floating-point numbers

A decimal is read as the number nearest to its value (`Decimal.toBinary64_eq`), and the digits that
stand for a finite number are a decimal that is read back as it (`Shortest.nearest_decimal`),
whether they come from the search for the shortest ones or are all of them. Both forms of a layout
keep the value of the digits (`readUnsigned_positional`, `readUnsigned_scientific`), so every number
is read back from its text in any layout, but for the bits of a NaN (`Decimal.read_text`).
-/

namespace TypedDoc.Numeral

namespace Decimal

/-- The absolute value of a decimal. -/
def value (d : Decimal) : ℚ := d.coefficient * 10 ^ d.exponent

theorem scaleDecimal_eq (num den : ℕ) (e : ℤ) :
    ((scaleDecimal num den e).1 : ℚ) / (scaleDecimal num den e).2 = num / den * 10 ^ e := by
  have hpow : ∀ k : ℤ, 0 ≤ k → ((Nat.pow 10 k.toNat : ℕ) : ℚ) = 10 ^ k := by
    intro k hk
    obtain ⟨n, rfl⟩ := Int.eq_ofNat_of_zero_le hk
    simp
  unfold scaleDecimal
  split_ifs with h
  · rw [Nat.cast_mul, hpow e h]
    ring
  · rw [Nat.cast_mul, hpow (-e) (by omega), zpow_neg]
    field_simp

theorem scaleDecimal_snd_pos (num : ℕ) {den : ℕ} (h : 0 < den) (e : ℤ) :
    0 < (scaleDecimal num den e).2 := by
  unfold scaleDecimal
  split_ifs
  · exact h
  · exact Nat.mul_pos h (Nat.pow_pos (by decide))

theorem toBinary64_eq (d : Decimal) : d.toBinary64 = .nearest d.negative d.value := by
  unfold toBinary64 value
  simp only []
  rw [Binary64.ofRatio_eq_nearest _ _ (scaleDecimal_snd_pos _ one_pos _), scaleDecimal_eq,
    Nat.cast_one, div_one]

/-! ## Reading -/

theorem ofDigits_eq (n : ℕ) (ds : List Char) : ofDigits n ds = Nat.ofDigitChars 10 ds n :=
  ofDigits_eq_foldl n ds

theorem spanDigits_append {ds rest : List Char} (hd : ∀ c ∈ ds, c.isDigit = true)
    (hrest : ∀ c, rest.head? = some c → c.isDigit = false) :
    spanDigits (ds ++ rest) = (ds, rest) := by
  unfold spanDigits
  rw [List.takeWhile_append_of_pos hd, List.dropWhile_append_of_pos hd]
  rcases rest with _ | ⟨c, rest⟩
  · simp
  · simp [hrest c rfl]

theorem readUnsigned_whole (negative : Bool) {ds rest : List Char} {e : ℤ} (hne : ds ≠ [])
    (hd : ∀ c ∈ ds, c.isDigit = true)
    (hrest : ∀ c, rest.head? = some c → c.isDigit = false ∧ c ≠ '.')
    (he : readExponent rest = some e) :
    readUnsigned negative (ds ++ rest) = some ⟨negative, Nat.ofDigitChars 10 ds 0, e⟩ := by
  unfold readUnsigned
  rw [spanDigits_append hd fun c hc => (hrest c hc).1]
  simp only []
  split
  · exact absurd rfl (hrest '.' rfl).2
  · simp [hne, he, ofDigits_eq]

theorem readUnsigned_point (negative : Bool) {whole fraction rest : List Char} {e : ℤ}
    (hne : whole ≠ []) (hw : ∀ c ∈ whole, c.isDigit = true) (hf : ∀ c ∈ fraction, c.isDigit = true)
    (hrest : ∀ c, rest.head? = some c → c.isDigit = false) (he : readExponent rest = some e) :
    readUnsigned negative (whole ++ '.' :: (fraction ++ rest)) =
      some ⟨negative, Nat.ofDigitChars 10 (whole ++ fraction) 0, e - fraction.length⟩ := by
  have hpoint : ∀ c, ('.' :: (fraction ++ rest)).head? = some c → c.isDigit = false := by
    rintro _ ⟨⟩
    rfl
  unfold readUnsigned
  rw [spanDigits_append hw hpoint]
  simp [spanDigits_append hf hrest, hne, he, ofDigits_eq, Nat.ofDigitChars_append]

theorem readUnsigned_split (negative : Bool) {whole fraction : List Char} (hne : whole ≠ [])
    (hw : ∀ c ∈ whole, c.isDigit = true) (hf : ∀ c ∈ fraction, c.isDigit = true) :
    readUnsigned negative (whole ++ '.' :: fraction) =
      some ⟨negative, Nat.ofDigitChars 10 (whole ++ fraction) 0, -fraction.length⟩ := by
  have hread : readUnsigned negative (whole ++ '.' :: (fraction ++ [])) = _ :=
    readUnsigned_point negative hne hw hf nofun rfl
  rwa [List.append_nil, zero_sub] at hread

/-- A number starts with a digit or with its point. -/
theorem head_of_readUnsigned {negative : Bool} {cs : List Char} {d : Decimal}
    (h : readUnsigned negative cs = some d) :
    ∃ c rest, cs = c :: rest ∧ (c.isDigit = true ∨ c = '.') := by
  rcases cs with _ | ⟨c, rest⟩
  · cases h
  · refine ⟨c, rest, rfl, ?_⟩
    by_contra hc
    rw [not_or, Bool.not_eq_true] at hc
    unfold readUnsigned spanDigits at h
    rw [List.takeWhile_cons_of_neg (by simp [hc.1]), List.dropWhile_cons_of_neg (by simp [hc.1])]
      at h
    simp only [] at h
    split at h
    · rename_i rest' heq
      exact hc.2 (List.cons.inj heq).1
    · cases h

theorem ne_sign {c : Char} (h : c.isDigit = true ∨ c = '.') : c ≠ '-' ∧ c ≠ '+' := by
  constructor <;> rintro rfl <;> revert h <;> decide

theorem toLower_of_isDigit {c : Char} (h : c.isDigit = true ∨ c = '.') : c.toLower = c := by
  rcases h with h | rfl
  · simp only [Char.isDigit, Bool.and_eq_true, decide_eq_true_eq, ge_iff_le] at h
    unfold Char.toLower
    rw [dif_neg]
    intro hupper
    exact absurd (UInt32.le_trans hupper.1 h.2) (by decide)
  · rfl

/-- What is read as digits is none of the words for numbers without digits. -/
theorem readMagnitude_eq {negative : Bool} {cs : List Char} {d : Decimal}
    (h : readUnsigned negative cs = some d) : readMagnitude negative cs = some d.toBinary64 := by
  obtain ⟨c, rest, rfl, hc⟩ := head_of_readUnsigned h
  have hword : ∀ word : List Char, (c :: rest).map Char.toLower = word → word.head? = some c := by
    rintro _ rfl
    simp [toLower_of_isDigit hc]
  have hne : ∀ l, l = 'n' ∨ l = 'i' → l ≠ c := by
    rintro _ hl rfl
    rcases hl with rfl | rfl <;> revert hc <;> decide
  unfold readMagnitude
  split
  · rename_i hmap
    exact absurd (Option.some.inj (hword _ hmap)) (hne _ (.inl rfl))
  · rename_i hmap
    exact absurd (Option.some.inj (hword _ hmap)) (hne _ (.inr rfl))
  · rename_i hmap
    exact absurd (Option.some.inj (hword _ hmap)) (hne _ (.inr rfl))
  · rw [h]
    rfl

theorem read_eq {negative : Bool} {cs : List Char} {d : Decimal}
    (h : readUnsigned negative cs = some d) :
    read (if negative then '-' :: cs else cs) = .ok d.toBinary64 := by
  have hmag := readMagnitude_eq h
  cases negative with
  | true =>
    unfold read
    simp only [↓reduceIte, hmag]
  | false =>
    obtain ⟨c, rest, rfl, hc⟩ := head_of_readUnsigned h
    obtain ⟨hminus, hplus⟩ := ne_sign hc
    unfold read
    simp [hminus, hplus, hmag]

theorem read_plus {cs : List Char} {d : Decimal} (h : readUnsigned false cs = some d) :
    read ('+' :: cs) = .ok d.toBinary64 := by
  unfold read
  simp only [readMagnitude_eq h]

/-! ## Exponents -/

theorem ofExponentDigits_eq {ds : List Char} (h : Nat.ofDigitChars 10 ds 0 < 65536) :
    ofExponentDigits ds = Nat.ofDigitChars 10 ds 0 := by
  have hfold : ∀ n, Nat.ofDigitChars 10 ds n < 65536 →
      ds.foldl (fun n c => if n < 65536 then 10 * n + digit c else n) n =
        Nat.ofDigitChars 10 ds n := by
    intro n hn
    clear h
    induction ds generalizing n with
    | nil => rfl
    | cons c ds ih =>
      have hle : n ≤ Nat.ofDigitChars 10 (c :: ds) n := Integer.le_number (c :: ds) n
      rw [List.foldl_cons, if_pos (by omega)]
      rw [Nat.ofDigitChars_cons] at hn ⊢
      exact ih _ hn
  exact hfold 0 h

theorem readExponent_digits {n : ℕ} (h : n < 65536) :
    readExponent ('e' :: Nat.toDigits 10 n) = some (n : ℤ)
      ∧ readExponent ('e' :: '+' :: Nat.toDigits 10 n) = some (n : ℤ)
      ∧ readExponent ('e' :: '-' :: Nat.toDigits 10 n) = some (-(n : ℤ)) := by
  have hdigits : ∀ c ∈ Nat.toDigits 10 n, c.isDigit = true := fun c hc =>
    Nat.isDigit_of_mem_toDigits (by decide) (by decide) hc
  have hvalue : ofExponentDigits (Nat.toDigits 10 n) = n := by
    rw [ofExponentDigits_eq (by rwa [Nat.ofDigitChars_ten_toDigits]), Nat.ofDigitChars_ten_toDigits]
  have hall : (Nat.toDigits 10 n).all Char.isDigit = true := List.all_eq_true.2 hdigits
  refine ⟨?_, ?_, ?_⟩
  · obtain ⟨c, ds, hcs⟩ := List.exists_cons_of_ne_nil (Nat.toDigits_ne_nil (b := 10) (n := n))
    rw [hcs] at hdigits hvalue hall ⊢
    obtain ⟨hminus, hplus⟩ := ne_sign (.inl (hdigits c List.mem_cons_self))
    simp [readExponent, hminus, hplus, hall, hvalue]
  · simp [readExponent, hall, hvalue]
  · simp [readExponent, hall, hvalue]

theorem readExponent_written (plus : Bool) {e : ℤ} (h : e.natAbs < 65536) :
    readExponent ('e' :: ((if e < 0 then ['-'] else if plus then ['+'] else []) ++
      Nat.toDigits 10 e.natAbs)) = some e := by
  obtain ⟨hbare, hplus, hminus⟩ := readExponent_digits h
  split_ifs with hneg
  · exact hminus.trans (congrArg some (by omega))
  · exact hplus.trans (congrArg some (by omega))
  · exact hbare.trans (congrArg some (by omega))

end Decimal

namespace Shortest

theorem readsBack_iff {x : Binary64} {c : ℕ} {e : ℤ} :
    readsBack x c e = true ↔ Binary64.nearest x.isNegative (c * 10 ^ e) = x := by
  unfold readsBack
  rw [beq_iff_eq, Decimal.toBinary64_eq]
  exact ⟨fun h => congrArg Binary64.mk h, fun h => congrArg Binary64.bits h⟩

theorem value_exact (x : Binary64) : ((exact x).1 : ℚ) * 10 ^ (exact x).2 = x.value := by
  unfold exact Binary64.value
  split_ifs with h
  · rw [zpow_zero, mul_one, Nat.shiftLeft_eq, Nat.cast_mul, Binary64.two_pow_toNat h]
  · obtain ⟨k, hk⟩ : ∃ k : ℕ, x.exponent = -(k : ℤ) := ⟨(-x.exponent).toNat, by omega⟩
    rw [hk, neg_neg, Int.toNat_natCast, zpow_neg, zpow_neg, zpow_natCast, zpow_natCast]
    have hten : (10 : ℚ) ^ k = 2 ^ k * 5 ^ k := by rw [← mul_pow]; norm_num
    have hfive : ((Nat.pow 5 k : ℕ) : ℚ) = 5 ^ k := by simp
    rw [Nat.cast_mul, hfive, hten]
    field_simp

theorem readsBack_withDigits? {tie : Tie} {x : Binary64} {n : ℕ} {r : ℕ × ℤ}
    (h : withDigits? tie x n = some r) : readsBack x r.1 r.2 = true := by
  unfold withDigits? at h
  simp only [] at h
  split at h
  · rename_i hbelow habove
    obtain rfl := Option.some.inj h
    generalize (if 2 * _ = _ then _ else _ : Bool) = upward
    cases upward
    · exact hbelow
    · exact habove
  · rename_i hbelow _
    obtain rfl := Option.some.inj h
    exact hbelow
  · rename_i _ habove
    obtain rfl := Option.some.inj h
    exact habove
  · cases h

/-- The digits of a number are read back as it. -/
theorem nearest_decimal (tie : Tie) {x : Binary64} (h : x.isFinite = true) :
    .nearest x.isNegative ((decimal tie x).1 * 10 ^ (decimal tie x).2) = x := by
  unfold decimal
  rcases hf : (List.range' 1 17).findSome? (withDigits? tie x) with _ | r
  · rw [Option.getD_none, value_exact, Binary64.nearest_value h]
  · obtain ⟨n, -, hn⟩ := List.exists_of_findSome?_eq_some hf
    rw [Option.getD_some, ← readsBack_iff]
    exact readsBack_withDigits? hn

end Shortest

namespace Layout

open Decimal

theorem significant_append (ds : List Char) :
    ∃ k, ds = significant ds ++ List.replicate k '0' := by
  have hzero : ∀ c ∈ ds.reverse.takeWhile (· == '0'), c = '0' := by
    intro c hc
    have h := List.mem_takeWhile_imp (p := (· == '0')) hc
    exact beq_iff_eq.1 h
  obtain ⟨k, hk⟩ : ∃ k, ds.reverse.takeWhile (· == '0') = List.replicate k '0' :=
    ⟨_, List.eq_replicate_iff.2 ⟨rfl, hzero⟩⟩
  refine ⟨k, ?_⟩
  calc ds = (ds.reverse.takeWhile (· == '0') ++ ds.reverse.dropWhile (· == '0')).reverse := by
        rw [List.takeWhile_append_dropWhile, List.reverse_reverse]
    _ = significant ds ++ List.replicate k '0' := by
        rw [List.reverse_append, hk, List.reverse_replicate]
        rfl

theorem isDigit_significant (n : ℕ) :
    ∀ c ∈ significant (Nat.toDigits 10 n), c.isDigit = true := by
  intro c hc
  obtain ⟨k, hk⟩ := significant_append (Nat.toDigits 10 n)
  refine Nat.isDigit_of_mem_toDigits (b := 10) (n := n) (by decide) (by decide) ?_
  rw [hk]
  exact List.mem_append_left _ hc

section Forms

variable {ds : List Char} (hne : ds ≠ []) (hd : ∀ c ∈ ds, c.isDigit = true)

include hne hd

theorem readUnsigned_positional (negative : Bool) (p : ℤ) :
    ∃ d, readUnsigned negative (positional ds p) = some d ∧ d.negative = negative
      ∧ d.value = Nat.ofDigitChars 10 ds 0 * 10 ^ (p - ds.length) := by
  have hzeros : ∀ k, ∀ c ∈ List.replicate k '0', c.isDigit = true := by
    intro k c hc
    rw [List.eq_of_mem_replicate hc]
    rfl
  unfold positional
  split_ifs with hlow hhigh
  · refine ⟨_, readUnsigned_split negative (List.cons_ne_nil '0' []) (by simp)
      (List.forall_mem_append.2 ⟨hzeros (-p).toNat, hd⟩), rfl, ?_⟩
    have hexp : -((List.replicate (-p).toNat '0' ++ ds).length : ℤ) = p - ds.length := by
      rw [List.length_append, List.length_replicate]
      omega
    unfold value
    simp only [hexp, Nat.ofDigitChars_append, Nat.ofDigitChars_replicate_zero]
    rfl
  · refine ⟨_, readUnsigned_split negative (by simp [hne])
      (List.forall_mem_append.2 ⟨hd, hzeros (p.toNat - ds.length)⟩) (by simp), rfl, ?_⟩
    obtain ⟨k, rfl⟩ : ∃ k : ℕ, p = ds.length + k := ⟨p.toNat - ds.length, by omega⟩
    have hpad : ((ds.length : ℤ) + k).toNat - ds.length = k := by omega
    have hexp : (ds.length : ℤ) + k - ds.length = k := by omega
    have hzero : Nat.ofDigitChars 10 ['0'] (10 ^ k * Nat.ofDigitChars 10 ds 0) =
        10 * (10 ^ k * Nat.ofDigitChars 10 ds 0) := rfl
    unfold value
    simp only [hpad, hexp, Nat.ofDigitChars_append, Nat.ofDigitChars_replicate_zero, hzero,
      zpow_natCast, List.length_singleton]
    push_cast
    norm_num
    ring
  · refine ⟨_, readUnsigned_split negative (by simp [hne]; omega)
      (fun c hc => hd c (List.mem_of_mem_take hc))
      (fun c hc => hd c (List.mem_of_mem_drop (i := p.toNat) hc)), rfl, ?_⟩
    have hexp : -((ds.drop p.toNat).length : ℤ) = p - ds.length := by
      rw [List.length_drop]
      omega
    unfold value
    simp only [hexp, List.take_append_drop]

theorem readUnsigned_scientific (negative plus : Bool) {p : ℤ} (hp : (p - 1).natAbs < 65536) :
    ∃ d, readUnsigned negative (scientific plus ds p) = some d ∧ d.negative = negative
      ∧ d.value = Nat.ofDigitChars 10 ds 0 * 10 ^ (p - ds.length) := by
  have hexponent := readExponent_written plus hp
  unfold scientific
  simp only [List.append_assoc, List.cons_append]
  split
  · rename_i c
    have hread := readUnsigned_whole negative hne hd (by rintro _ ⟨⟩; decide) hexponent
    exact ⟨_, hread, rfl, rfl⟩
  · rename_i c rest _
    have hread := readUnsigned_point negative (List.cons_ne_nil c [])
      (fun a ha => hd a (List.mem_cons.2 (.inl (List.mem_singleton.1 ha))))
      (fun a ha => hd a (List.mem_cons_of_mem c ha)) (by rintro _ ⟨⟩; decide) hexponent
    refine ⟨_, hread, rfl, ?_⟩
    unfold value
    simp only [List.singleton_append, List.length_cons]
    congr 2
    omega
  · exact absurd rfl hne

end Forms

theorem digits_bounds {c : ℕ} (hc : 0 < c) (e : ℤ) :
    (10 : ℚ) ^ (((Nat.toDigits 10 c).length : ℤ) + e - 1) ≤ c * 10 ^ e
      ∧ (c : ℚ) * 10 ^ e < 10 ^ (((Nat.toDigits 10 c).length : ℤ) + e) := by
  have hten : (10 : ℚ) ≠ 0 := by norm_num
  have hpow : (0 : ℚ) < 10 ^ e := by positivity
  obtain ⟨n, hn⟩ : ∃ n, (Nat.toDigits 10 c).length = n + 1 :=
    ⟨_, (Nat.succ_pred_eq_of_pos Nat.length_toDigits_pos).symm⟩
  have hlt : c < 10 ^ (n + 1) :=
    (Nat.length_toDigits_le_iff (by decide) (Nat.succ_pos n)).1 hn.le
  have hle : 10 ^ n ≤ c := by
    rcases Nat.eq_zero_or_pos n with rfl | hpos
    · exact hc
    · by_contra hlow
      have := (Nat.length_toDigits_le_iff (by decide) hpos).2 (not_le.1 hlow)
      omega
  have hexp : ((n + 1 : ℕ) : ℤ) + e - 1 = n + e := by
    push_cast
    ring
  rw [hn, hexp, zpow_add₀ hten, zpow_add₀ hten, zpow_natCast, zpow_natCast]
  refine ⟨mul_le_mul_of_nonneg_right ?_ hpow.le, mul_lt_mul_of_pos_right ?_ hpow⟩
  · exact_mod_cast hle
  · exact_mod_cast hlt

/-- The exponents of finite numbers are short. -/
theorem natAbs_lt_of_nearest {x : Binary64} (h : x.isFinite = true) (hz : x.isZero = false) {c : ℕ}
    (hc : 0 < c) {e : ℤ} (hx : .nearest x.isNegative (c * 10 ^ e) = x) :
    (((Nat.toDigits 10 c).length : ℤ) + e - 1).natAbs < 65536 := by
  obtain ⟨hle, hlt⟩ := digits_bounds hc e
  have hpos : (0 : ℚ) < c * 10 ^ e := lt_of_lt_of_le (by positivity) hle
  obtain ⟨hlow, hhigh⟩ := Binary64.bounds_of_nearest hpos (by rw [hx, h]) (by rw [hx, hz])
  have hupper : ((Nat.toDigits 10 c).length : ℤ) + e - 1 < 1024 := by
    by_contra hge
    have : (2 : ℚ) ^ (1024 : ℤ) ≤ 10 ^ (((Nat.toDigits 10 c).length : ℤ) + e - 1) := by
      calc (2 : ℚ) ^ (1024 : ℤ) ≤ 10 ^ (1024 : ℤ) := by
            rw [zpow_ofNat, zpow_ofNat]
            exact pow_le_pow_left₀ (by norm_num) (by norm_num) 1024
        _ ≤ _ := zpow_le_zpow_right₀ (by norm_num) (not_lt.1 hge)
    exact absurd (this.trans hle) (not_le.2 hhigh)
  have hlower : -1076 < ((Nat.toDigits 10 c).length : ℤ) + e := by
    by_contra hge
    have : (10 : ℚ) ^ (((Nat.toDigits 10 c).length : ℤ) + e) ≤ 2 ^ (-1076 : ℤ) := by
      calc (10 : ℚ) ^ (((Nat.toDigits 10 c).length : ℤ) + e) ≤ 10 ^ (-1076 : ℤ) :=
            zpow_le_zpow_right₀ (by norm_num) (not_lt.1 hge)
        _ ≤ 2 ^ (-1076 : ℤ) := by
            rw [zpow_neg, zpow_neg, zpow_ofNat, zpow_ofNat]
            exact inv_anti₀ (by positivity) (pow_le_pow_left₀ (by norm_num) (by norm_num) 1076)
    exact absurd (hlt.trans_le this) (not_lt.2 hlow.le)
  omega

/-- Either form of the digits of a decimal is read as a decimal of the same value. -/
theorem readUnsigned_form (layout : Layout) (negative : Bool) {c : ℕ} (hc : 0 < c) {e p : ℤ}
    (hp : p = (Nat.toDigits 10 c).length + e) (hshort : (p - 1).natAbs < 65536) :
    ∃ d, readUnsigned negative
        (if layout.lowest ≤ p ∧ p ≤ layout.highest then
          positional (significant (Nat.toDigits 10 c)) p
        else scientific layout.plus (significant (Nat.toDigits 10 c)) p) = some d
      ∧ d.negative = negative ∧ d.value = c * 10 ^ e := by
  obtain ⟨k, hk⟩ := significant_append (Nat.toDigits 10 c)
  have hlength := congrArg List.length hk
  have hvalue := congrArg (Nat.ofDigitChars 10 · 0) hk
  simp only [List.length_append, List.length_replicate, Nat.ofDigitChars_ten_toDigits,
    Nat.ofDigitChars_append, Nat.ofDigitChars_replicate_zero] at hlength hvalue
  have hd := isDigit_significant c
  generalize significant (Nat.toDigits 10 c) = ds at *
  have hne : ds ≠ [] := by
    rintro rfl
    rw [Nat.ofDigitChars_nil, mul_zero] at hvalue
    omega
  have hsame : (Nat.ofDigitChars 10 ds 0 : ℚ) * 10 ^ (p - ds.length) = c * 10 ^ e := by
    have hexp : p - ds.length = k + e := by omega
    have hc' : (c : ℚ) = 10 ^ k * Nat.ofDigitChars 10 ds 0 := by exact_mod_cast hvalue
    rw [hexp, zpow_add₀ (by norm_num), zpow_natCast, hc']
    ring
  rw [← hsame]
  split_ifs
  · exact readUnsigned_positional hne hd negative p
  · exact readUnsigned_scientific hne hd negative layout.plus hshort

theorem readUnsigned_magnitude (layout : Layout) {x : Binary64} (h : x.isFinite = true) :
    ∃ d, readUnsigned x.isNegative (layout.magnitude x) = some d ∧ d.toBinary64 = x := by
  unfold magnitude
  by_cases hz : x.isZero = true
  · rw [if_pos hz]
    refine ⟨⟨x.isNegative, 0, -1⟩, rfl, ?_⟩
    have hvalue : value ⟨x.isNegative, 0, -1⟩ = x.value := by
      rw [Binary64.value_eq_zero_iff.2 hz]
      simp [value]
    rw [toBinary64_eq, hvalue]
    exact Binary64.nearest_value h
  · rw [if_neg hz]
    rw [Bool.not_eq_true] at hz
    have hx := Shortest.nearest_decimal layout.tie h
    rcases hdecimal : Shortest.decimal layout.tie x with ⟨c, e⟩
    rw [hdecimal] at hx
    have hc : 0 < c := by
      refine Nat.pos_of_ne_zero ?_
      rintro rfl
      have hzero : Binary64.zero x.isNegative = x := by
        rw [Nat.cast_zero, zero_mul] at hx
        exact hx
      rw [← hzero] at hz
      cases hneg : x.isNegative <;> rw [hneg] at hz <;> exact absurd hz (by decide)
    obtain ⟨d, hd, hsign, hvalue⟩ := readUnsigned_form layout x.isNegative hc rfl
      (natAbs_lt_of_nearest h hz hc hx)
    refine ⟨d, hd, ?_⟩
    rw [toBinary64_eq, hsign, hvalue, hx]

end Layout

/-! ## Whole texts -/

/-- The characters that the text of a number may have. -/
def IsNumeral (c : Char) : Prop := c.isDigit = true ∨ c ∈ ['-', '+', '.', 'e']

instance : DecidablePred IsNumeral := fun _ => inferInstanceAs (Decidable (_ ∨ _))

namespace Layout

theorem isNumeral_positional {ds : List Char} (h : ∀ c ∈ ds, IsNumeral c) (p : ℤ) :
    ∀ c ∈ positional ds p, IsNumeral c := by
  have hzero : IsNumeral '0' := .inl rfl
  have hpoint : IsNumeral '.' := .inr (by decide)
  have hzeros : ∀ n, ∀ c ∈ List.replicate n '0', IsNumeral c := fun n c hc =>
    List.eq_of_mem_replicate hc ▸ hzero
  unfold positional
  split_ifs
  · exact List.forall_mem_cons.2 ⟨hzero, List.forall_mem_cons.2
      ⟨hpoint, List.forall_mem_append.2 ⟨hzeros _, h⟩⟩⟩
  · exact List.forall_mem_append.2 ⟨List.forall_mem_append.2 ⟨h, hzeros _⟩,
      List.forall_mem_cons.2 ⟨hpoint, List.forall_mem_singleton.2 hzero⟩⟩
  · exact List.forall_mem_append.2 ⟨fun c hc => h c (List.mem_of_mem_take hc),
      List.forall_mem_cons.2 ⟨hpoint, fun c hc => h c (List.mem_of_mem_drop hc)⟩⟩

theorem isNumeral_toDigits (n : ℕ) : ∀ c ∈ Nat.toDigits 10 n, IsNumeral c := fun _ hc =>
  .inl (Nat.isDigit_of_mem_toDigits (by decide) (by decide) hc)

theorem isNumeral_scientific {ds : List Char} (h : ∀ c ∈ ds, IsNumeral c) (plus : Bool) (p : ℤ) :
    ∀ c ∈ scientific plus ds p, IsNumeral c := by
  have hpoint : IsNumeral '.' := .inr (by decide)
  have hmark : IsNumeral 'e' := .inr (by decide)
  have hsign : ∀ c ∈ (if p - 1 < 0 then ['-'] else if plus then ['+'] else []), IsNumeral c := by
    split_ifs
    · exact List.forall_mem_singleton.2 (.inr (by decide))
    · exact List.forall_mem_singleton.2 (.inr (by decide))
    · exact nofun
  unfold scientific
  refine List.forall_mem_append.2 ⟨List.forall_mem_append.2 ⟨?_, List.forall_mem_cons.2 ⟨hmark,
    hsign⟩⟩, isNumeral_toDigits _⟩
  split
  · exact h
  · rw [List.forall_mem_cons] at h
    exact List.forall_mem_cons.2 ⟨h.1, List.forall_mem_cons.2 ⟨hpoint, h.2⟩⟩
  · exact nofun

theorem isNumeral_magnitude (layout : Layout) (x : Binary64) :
    ∀ c ∈ layout.magnitude x, IsNumeral c := by
  have hsignificant : ∀ n, ∀ c ∈ significant (Nat.toDigits 10 n), IsNumeral c := fun n c hc =>
    .inl (isDigit_significant n c hc)
  unfold magnitude
  simp only []
  split_ifs
  · simp [IsNumeral]
  · exact isNumeral_positional (hsignificant _) _
  · exact isNumeral_scientific (hsignificant _) _ _

end Layout

/-- The number itself, and one NaN for all of them. -/
def Binary64.canonical (x : Binary64) : Binary64 := if x.isNaN then .nan false else x

theorem Binary64.isNaN_of_isFinite {x : Binary64} (h : x.isFinite = true) : x.isNaN = false := by
  have hexponent : x.exponentField ≠ 2047 := by simpa [isFinite] using h
  simp [isNaN, hexponent]

theorem Binary64.not_isFinite_of_isNaN {x : Binary64} (h : x.isNaN = true) :
    ¬ x.isFinite = true := fun hfinite => by
  rw [isNaN_of_isFinite hfinite] at h
  cases h

theorem Binary64.eq_infinity {x : Binary64} (hfinite : x.isFinite = false)
    (hnan : x.isNaN = false) : x = .infinity x.isNegative := by
  have hbits := x.bits_eq
  have hexponent : x.exponentField = 2047 := by simpa [isFinite] using hfinite
  have hfraction : x.fractionField = 0 := by simpa [isNaN, hexponent] using hnan
  rw [hexponent, hfraction, add_zero] at hbits
  have hnumber : x = ⟨UInt64.ofNat x.bits.toNat⟩ := by rw [UInt64.ofNat_toNat]
  rw [hbits] at hnumber
  exact hnumber

/-- The text of a number is read back as the number, up to the bits of a NaN. -/
theorem Decimal.read_text (layout : Layout) (x : Binary64) :
    read (layout.text x).toList = .ok x.canonical := by
  unfold Layout.text Binary64.canonical
  by_cases hfinite : x.isFinite = true
  · have hnan := Binary64.isNaN_of_isFinite hfinite
    obtain ⟨d, hd, hx⟩ := layout.readUnsigned_magnitude hfinite
    unfold Layout.finite
    rw [if_pos hfinite, String.toList_ofList, read_eq hd, hx, hnan]
    rfl
  · rw [if_neg hfinite]
    by_cases hnan : x.isNaN = true
    · rw [if_pos hnan, if_pos hnan]
      rfl
    · rw [if_neg hnan, if_neg hnan]
      rw [Bool.not_eq_true] at hfinite hnan
      rw [Binary64.eq_infinity hfinite hnan]
      cases x.isNegative <;> rfl

/-- The text of an integer is read as the number nearest to it; a zero may have either sign. -/
theorem Decimal.read_of_denotes {cs : List Char} {m : ℤ} (h : Integer.Denotes cs m) :
    ∃ negative, read cs = .ok (.nearest negative m.natAbs)
      ∧ (m < 0 → negative = true) ∧ (0 < m → negative = false) := by
  have hdigits : ∀ {ds}, Integer.IsDigits ds → ∀ negative, readUnsigned negative ds =
      some ⟨negative, Integer.number 0 ds, 0⟩ := by
    intro ds hds negative
    have hread : readUnsigned negative (ds ++ []) = _ := readUnsigned_whole negative hds.1
      (fun c hc => Integer.isDigit_iff.2 (hds.2 c hc)) nofun rfl
    rwa [List.append_nil] at hread
  have hvalue : ∀ negative n, (Decimal.mk negative n 0).toBinary64 = .nearest negative n := by
    intro negative n
    rw [toBinary64_eq]
    simp [value]
  cases h with
  | bare hds =>
    have hread := read_eq (hdigits hds false)
    rw [hvalue] at hread
    exact ⟨false, hread, by omega, fun _ => rfl⟩
  | plus hds =>
    have hread := read_plus (hdigits hds false)
    rw [hvalue] at hread
    exact ⟨false, hread, by omega, fun _ => rfl⟩
  | minus hds =>
    have hread := read_eq (hdigits hds true)
    rw [hvalue] at hread
    refine ⟨true, ?_, fun _ => rfl, by omega⟩
    rwa [Int.natAbs_neg]

end TypedDoc.Numeral

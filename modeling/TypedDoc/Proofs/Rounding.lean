import Mathlib.Algebra.Order.Field.Power
import Mathlib.Algebra.Order.Floor.Semifield
import Mathlib.Data.Int.Log
import Mathlib.Data.Rat.Floor
import Mathlib.Tactic.FieldSimp
import Mathlib.Tactic.Linarith
import Mathlib.Tactic.Positivity
import Mathlib.Tactic.Ring
import TypedDoc.Numeral.Binary64

/-!
# Rounding to floating-point numbers

The integer arithmetic on fractions, said of the rational numbers that they stand for. The number
nearest to a fraction depends on its value only (`ofRatio_eq_nearest`), a finite number is the one
nearest to its own value (`nearest_value`), and so is every integer below `2 ^ 53`
(`round_nearest_natCast`); what is no less than such an integer is not rounded to less
(`le_value_nearest`). What is rounded to a finite number other than zero lies within the range of
these numbers (`bounds_of_nearest`).
-/

namespace TypedDoc.Numeral.Binary64

/-! ## Fractions -/

/-- The nearest integer, of two equally near ones the even one. -/
def roundEven (q : ℚ) : ℕ :=
  if 2 * (q - ⌊q⌋₊) < 1 then ⌊q⌋₊ else if 2 * (q - ⌊q⌋₊) = 1 then ⌊q⌋₊ + ⌊q⌋₊ % 2 else ⌊q⌋₊ + 1

theorem roundDiv_eq (num : ℕ) {den : ℕ} (h : 0 < den) :
    roundDiv num den = roundEven (num / den) := by
  have hden : (0 : ℚ) < den := by exact_mod_cast h
  have hfloor : ⌊(num / den : ℚ)⌋₊ = num / den := Nat.floor_div_eq_div num den
  have hrest : 2 * ((num / den : ℚ) - (num / den : ℕ)) = (2 * (num % den) : ℕ) / den := by
    have hsplit : (num : ℚ) = den * (num / den : ℕ) + (num % den : ℕ) := by
      exact_mod_cast (Nat.div_add_mod num den).symm
    rw [eq_div_iff hden.ne', hsplit]
    push_cast
    field_simp
    ring
  unfold roundDiv roundEven
  simp only [hfloor, hrest, div_lt_one hden, div_eq_one_iff_eq hden.ne', Nat.cast_lt, Nat.cast_inj]

theorem roundEven_natCast (n : ℕ) : roundEven n = n := by
  unfold roundEven
  rw [Nat.floor_natCast, sub_self, mul_zero, if_pos one_pos]

theorem le_roundEven {n : ℕ} {q : ℚ} (h : (n : ℚ) ≤ q) : n ≤ roundEven q := by
  have := Nat.le_floor h
  unfold roundEven
  split_ifs <;> omega

theorem roundEven_le {n : ℕ} {q : ℚ} (hq : 0 ≤ q) (h : q ≤ n) : roundEven q ≤ n := by
  rcases h.eq_or_lt with rfl | hlt
  · rw [roundEven_natCast]
  · have := (Nat.floor_lt hq).2 hlt
    unfold roundEven
    split_ifs <;> omega

theorem roundEven_eq_zero {q : ℚ} (h : 2 * q < 1) : roundEven q = 0 := by
  have hfloor : ⌊q⌋₊ = 0 := Nat.floor_eq_zero.2 (by linarith)
  unfold roundEven
  rw [hfloor, Nat.cast_zero, sub_zero, if_pos h]

theorem two_pow_toNat {e : ℤ} (h : 0 ≤ e) : ((2 ^ e.toNat : ℕ) : ℚ) = 2 ^ e := by
  obtain ⟨n, rfl⟩ := Int.eq_ofNat_of_zero_le h
  simp

theorem scaleBinary_eq (num den : ℕ) (e : ℤ) :
    ((scaleBinary num den e).1 : ℚ) / (scaleBinary num den e).2 = num / den * 2 ^ e := by
  unfold scaleBinary
  split_ifs with h
  · simp only [Nat.shiftLeft_eq]
    rw [Nat.cast_mul, two_pow_toNat h]
    ring
  · simp only [Nat.shiftLeft_eq]
    rw [Nat.cast_mul, two_pow_toNat (by omega), zpow_neg]
    field_simp

theorem scaleBinary_snd_pos (num : ℕ) {den : ℕ} (h : 0 < den) (e : ℤ) :
    0 < (scaleBinary num den e).2 := by
  unfold scaleBinary
  split_ifs
  · exact h
  · rw [Nat.shiftLeft_eq]
    positivity

theorem log_eq {q : ℚ} {k : ℤ} (hle : 2 ^ k ≤ q) (hlt : q < 2 ^ (k + 1)) : Int.log 2 q = k := by
  have hq : 0 < q := lt_of_lt_of_le (by positivity) hle
  have h1 : k ≤ Int.log 2 q := (Int.zpow_le_iff_le_log one_lt_two hq).1 (by exact_mod_cast hle)
  have h2 : Int.log 2 q < k + 1 := (Int.lt_zpow_iff_log_lt one_lt_two hq).1 (by exact_mod_cast hlt)
  omega

theorem log2_bounds {n : ℕ} (h : 0 < n) :
    (2 : ℚ) ^ (n.log2 : ℤ) ≤ n ∧ (n : ℚ) < 2 ^ ((n.log2 : ℤ) + 1) := by
  have h1 : 2 ^ n.log2 ≤ n := Nat.log2_self_le h.ne'
  have h2 : n < 2 ^ (n.log2 + 1) := Nat.lt_log2_self
  rw [← Nat.cast_succ, zpow_natCast, zpow_natCast]
  exact ⟨by exact_mod_cast h1, by exact_mod_cast h2⟩

theorem floorLog2_eq {num den : ℕ} (hnum : 0 < num) (hden : 0 < den) :
    floorLog2 num den = Int.log 2 (num / den : ℚ) := by
  obtain ⟨hn, hn'⟩ := log2_bounds hnum
  obtain ⟨hd, hd'⟩ := log2_bounds hden
  have hden' : (0 : ℚ) < den := by exact_mod_cast hden
  have htest : (scaleBinary num den (-((num.log2 : ℤ) - den.log2))).2 ≤
      (scaleBinary num den (-((num.log2 : ℤ) - den.log2))).1 ↔
        (2 : ℚ) ^ ((num.log2 : ℤ) - den.log2) ≤ num / den := by
    have hpos := scaleBinary_snd_pos num hden (-((num.log2 : ℤ) - den.log2))
    rw [← Nat.cast_le (α := ℚ), ← one_le_div (by exact_mod_cast hpos), scaleBinary_eq, zpow_neg,
      ← div_eq_mul_inv, one_le_div (by positivity)]
  unfold floorLog2
  simp only [htest]
  refine (log_eq ?_ ?_).symm
  · split_ifs with h
    · exact h
    · rw [le_div_iff₀ hden']
      calc (2 : ℚ) ^ ((num.log2 : ℤ) - den.log2 - 1) * den
          ≤ 2 ^ ((num.log2 : ℤ) - den.log2 - 1) * 2 ^ ((den.log2 : ℤ) + 1) := by gcongr
        _ = 2 ^ (num.log2 : ℤ) := by
          rw [← zpow_add₀ two_ne_zero]
          congr 1
          ring
        _ ≤ num := hn
  · split_ifs with h
    · rw [div_lt_iff₀ hden']
      calc (num : ℚ) < 2 ^ ((num.log2 : ℤ) + 1) := hn'
        _ = 2 ^ ((num.log2 : ℤ) - den.log2 + 1) * 2 ^ (den.log2 : ℤ) := by
          rw [← zpow_add₀ two_ne_zero]
          congr 1
          ring
        _ ≤ 2 ^ ((num.log2 : ℤ) - den.log2 + 1) * den := by gcongr
    · rw [sub_add_cancel]
      exact not_le.1 h

/-! ## The nearest number -/

/-- The exponent of the unit in the last place of numbers near a positive rational number. -/
def unit (q : ℚ) : ℤ := max (-1074) (Int.log 2 q - 52)

/-- The bits of a number below its sign. -/
def magnitude (c : ℕ) (e : ℤ) : ℕ := ((e + 1074).toNat <<< 52) + c

/-- The floating-point number nearest to a rational number that is not negative. -/
def nearest (negative : Bool) (q : ℚ) : Binary64 :=
  if q = 0 then zero negative
  else
    ofSignMagnitude negative
      (min (magnitude (roundEven (q * 2 ^ (-unit q))) (unit q)) infinityMagnitude)

theorem ofRatio_eq_nearest (negative : Bool) (num : ℕ) {den : ℕ} (h : 0 < den) :
    ofRatio negative num den = nearest negative (num / den) := by
  have hden : (den : ℚ) ≠ 0 := by exact_mod_cast h.ne'
  rcases Nat.eq_zero_or_pos num with rfl | hnum
  · simp [ofRatio, nearest]
  · have hq : (num / den : ℚ) ≠ 0 := div_ne_zero (by exact_mod_cast hnum.ne') hden
    have hunit : unitExponent num den = unit (num / den) := by
      unfold unitExponent unit
      rw [floorLog2_eq hnum h]
    unfold ofRatio nearest
    rw [if_neg hnum.ne', if_neg hq]
    simp only [hunit]
    rw [roundDiv_eq _ (scaleBinary_snd_pos num h _), scaleBinary_eq]
    rfl

/-! ## Coefficients and exponents -/

/-- The coefficients and the exponents of finite numbers: the coefficient has its full width unless
the exponent is the lowest one. -/
structure IsForm (c : ℕ) (e : ℤ) : Prop where
  lowest : -1074 ≤ e
  highest : e ≤ 971
  width : c < 1 <<< 53
  full : e = -1074 ∨ 1 <<< 52 ≤ c

theorem bits_eq (x : Binary64) : x.bits.toNat =
    (if x.isNegative then 1 <<< 63 else 0) + (x.exponentField <<< 52) + x.fractionField := by
  have hlt := x.bits.toNat_lt
  unfold isNegative exponentField fractionField
  simp only [Nat.shiftLeft_eq, Nat.shiftRight_eq_div_pow, decide_eq_true_eq]
  split_ifs <;> omega

theorem isForm_of_isFinite {x : Binary64} (h : x.isFinite = true) :
    IsForm x.coefficient x.exponent := by
  have hf : x.fractionField < 1 <<< 52 := Nat.mod_lt _ (by decide)
  have he : x.exponentField < 2048 := Nat.mod_lt _ (by decide)
  have hne : x.exponentField ≠ 2047 := by simpa [isFinite] using h
  unfold coefficient exponent
  simp only [Nat.shiftLeft_eq] at hf ⊢
  split_ifs with h0
  · exact ⟨by omega, by omega, by omega, .inl rfl⟩
  · exact ⟨by omega, by omega, by omega, .inr (by omega)⟩

/-- Every number is its sign before its coefficient and its exponent. -/
theorem ofSignMagnitude_magnitude (x : Binary64) :
    ofSignMagnitude x.isNegative (magnitude x.coefficient x.exponent) = x := by
  have hbits := x.bits_eq
  have hmagnitude : magnitude x.coefficient x.exponent =
      (x.exponentField <<< 52) + x.fractionField := by
    unfold magnitude coefficient exponent
    split_ifs with h0
    · rw [h0]
      rfl
    · have he : ((x.exponentField : ℤ) - 1075 + 1074).toNat = x.exponentField - 1 := by omega
      rw [he, Nat.shiftLeft_eq, Nat.shiftLeft_eq, Nat.shiftLeft_eq]
      omega
  unfold ofSignMagnitude
  rw [hmagnitude, ← add_assoc, ← hbits, UInt64.ofNat_toNat]

theorem toNat_ofSignMagnitude (negative : Bool) {m : ℕ} (h : m < 1 <<< 63) :
    (ofSignMagnitude negative m).bits.toNat = (if negative then 1 <<< 63 else 0) + m := by
  unfold ofSignMagnitude
  rw [UInt64.toNat_ofNat', Nat.mod_eq_of_lt]
  simp only [Nat.shiftLeft_eq] at h ⊢
  split_ifs <;> omega

namespace IsForm

variable {c : ℕ} {e : ℤ}

theorem magnitude_lt (h : IsForm c e) : magnitude c e < infinityMagnitude := by
  obtain ⟨h1, h2, h3, -⟩ := h
  unfold magnitude infinityMagnitude
  simp only [Nat.shiftLeft_eq] at h3 ⊢
  omega

theorem fields (h : IsForm c e) (negative : Bool) :
    (ofSignMagnitude negative (magnitude c e)).isNegative = negative
      ∧ (ofSignMagnitude negative (magnitude c e)).exponentField =
        (if c < 1 <<< 52 then 0 else (e + 1075).toNat)
      ∧ (ofSignMagnitude negative (magnitude c e)).fractionField = c % (1 <<< 52) := by
  have hlt : magnitude c e < 1 <<< 63 := h.magnitude_lt.trans (by decide)
  have hbits := toNat_ofSignMagnitude negative hlt
  obtain ⟨h1, h2, h3, h4⟩ := h
  unfold isNegative exponentField fractionField
  rw [hbits]
  unfold magnitude at hlt ⊢
  simp only [Nat.shiftLeft_eq, Nat.shiftRight_eq_div_pow] at *
  cases negative <;> simp only [decide_eq_true_eq, decide_eq_false_iff_not, Bool.false_eq_true,
    ↓reduceIte] <;> refine ⟨by omega, ?_, by omega⟩ <;> split_ifs <;> omega

theorem decode (h : IsForm c e) (negative : Bool) :
    (ofSignMagnitude negative (magnitude c e)).isFinite = true
      ∧ (ofSignMagnitude negative (magnitude c e)).coefficient = c
      ∧ (ofSignMagnitude negative (magnitude c e)).exponent = e := by
  obtain ⟨-, he, hf⟩ := h.fields negative
  obtain ⟨h1, h2, h3, h4⟩ := h
  unfold isFinite coefficient exponent
  rw [he, hf]
  simp only [Nat.shiftLeft_eq, bne_iff_ne] at *
  split_ifs <;> omega

theorem unit_eq (h : IsForm c e) (hc : 0 < c) : unit (c * 2 ^ e) = e := by
  obtain ⟨h1, -, h3, h4⟩ := h
  have hpow : (0 : ℚ) < 2 ^ e := by positivity
  have hwidth : (c : ℚ) < 2 ^ (53 : ℤ) := by exact_mod_cast h3
  have hlt : (c : ℚ) * 2 ^ e < 2 ^ (53 + e) := by
    rw [zpow_add₀ two_ne_zero]
    exact mul_lt_mul_of_pos_right hwidth hpow
  have hlog : Int.log 2 ((c : ℚ) * 2 ^ e) < 53 + e :=
    (Int.lt_zpow_iff_log_lt one_lt_two (by positivity)).1 (by exact_mod_cast hlt)
  unfold unit
  rcases h4 with rfl | hfull
  · omega
  · have hle : (2 : ℚ) ^ (52 + e) ≤ c * 2 ^ e := by
      have hfull' : (2 : ℚ) ^ (52 : ℤ) ≤ c := by exact_mod_cast hfull
      rw [zpow_add₀ two_ne_zero]
      exact mul_le_mul_of_nonneg_right hfull' hpow.le
    have hlog' : 52 + e ≤ Int.log 2 ((c : ℚ) * 2 ^ e) :=
      (Int.zpow_le_iff_le_log one_lt_two (by positivity)).1 (by exact_mod_cast hle)
    omega

theorem nearest_eq (h : IsForm c e) (negative : Bool) :
    nearest negative (c * 2 ^ e) = ofSignMagnitude negative (magnitude c e) := by
  have hpow : (2 : ℚ) ^ e ≠ 0 := by positivity
  unfold nearest
  rcases Nat.eq_zero_or_pos c with rfl | hc
  · have he : e = -1074 := h.full.resolve_right (by decide)
    rw [he]
    simp [zero, magnitude]
  · have hc' : (c : ℚ) ≠ 0 := by exact_mod_cast hc.ne'
    rw [if_neg (mul_ne_zero hc' hpow), h.unit_eq hc, mul_assoc, ← zpow_add₀ two_ne_zero,
      add_neg_cancel, zpow_zero, mul_one, roundEven_natCast, min_eq_left h.magnitude_lt.le]

end IsForm

/-- The absolute value of a finite number. -/
def value (x : Binary64) : ℚ := x.coefficient * 2 ^ x.exponent

theorem nearest_value {x : Binary64} (h : x.isFinite = true) :
    nearest x.isNegative x.value = x := by
  unfold value
  rw [(isForm_of_isFinite h).nearest_eq, ofSignMagnitude_magnitude]

theorem value_eq_zero_iff {x : Binary64} : x.value = 0 ↔ x.isZero = true := by
  unfold value coefficient isZero
  rw [mul_eq_zero, Nat.cast_eq_zero, or_iff_left (by positivity), Bool.and_eq_true, beq_iff_eq,
    beq_iff_eq]
  simp only [Nat.shiftLeft_eq]
  split_ifs <;> omega

/-- Away from the lowest exponent the coefficient has its full width before it is rounded. -/
theorem coefficient_bounds {q : ℚ} (hq : 0 < q) (hunit : unit q = Int.log 2 q - 52) :
    ((1 <<< 52 : ℕ) : ℚ) ≤ q * 2 ^ (-unit q) ∧ q * 2 ^ (-unit q) ≤ ((1 <<< 53 : ℕ) : ℚ) := by
  have hle : (2 : ℚ) ^ Int.log 2 q ≤ q := by exact_mod_cast Int.zpow_log_le_self one_lt_two hq
  have hlt : q < (2 : ℚ) ^ (Int.log 2 q + 1) := by
    exact_mod_cast Int.lt_zpow_succ_log_self one_lt_two q
  constructor
  · calc ((1 <<< 52 : ℕ) : ℚ) = 2 ^ Int.log 2 q * 2 ^ (-unit q) := by
          rw [← zpow_add₀ two_ne_zero, hunit]
          norm_num [Nat.shiftLeft_eq]
      _ ≤ q * 2 ^ (-unit q) := by gcongr
  · calc q * 2 ^ (-unit q) ≤ 2 ^ (Int.log 2 q + 1) * 2 ^ (-unit q) := by gcongr
      _ = ((1 <<< 53 : ℕ) : ℚ) := by
          have hexp : Int.log 2 q + 1 + -(Int.log 2 q - 52) = 53 := by ring
          rw [← zpow_add₀ two_ne_zero, hunit, hexp]
          norm_num [Nat.shiftLeft_eq]

/-- What is not rounded to infinity or to zero lies between these powers of two. -/
theorem bounds_of_nearest {negative : Bool} {q : ℚ} (hq : 0 < q)
    (hfinite : (nearest negative q).isFinite = true) (hzero : (nearest negative q).isZero = false) :
    2 ^ (-1076 : ℤ) < q ∧ q < 2 ^ (1024 : ℤ) := by
  unfold nearest at hfinite hzero
  rw [if_neg hq.ne'] at hfinite hzero
  refine ⟨?_, ?_⟩ <;> by_contra hlim <;> rw [not_lt] at hlim
  · have hlt : q < 2 ^ (-1075 : ℤ) :=
      hlim.trans_lt (zpow_lt_zpow_right₀ one_lt_two (by norm_num))
    have hlog : Int.log 2 q < -1075 :=
      (Int.lt_zpow_iff_log_lt one_lt_two hq).1 (by exact_mod_cast hlt)
    have hunit : unit q = -1074 := by
      unfold unit
      omega
    have hsmall : 2 * (q * 2 ^ (1074 : ℤ)) < 1 := by
      calc 2 * (q * 2 ^ (1074 : ℤ)) ≤ 2 * (2 ^ (-1076 : ℤ) * 2 ^ (1074 : ℤ)) := by gcongr
        _ < 1 := by
          rw [← zpow_add₀ two_ne_zero]
          norm_num
    rw [hunit, neg_neg, roundEven_eq_zero hsmall] at hzero
    cases negative <;> exact absurd hzero (by decide)
  · have hlog : 1024 ≤ Int.log 2 q :=
      (Int.zpow_le_iff_le_log one_lt_two hq).1 (by rwa [Nat.cast_ofNat])
    have hunit : unit q = Int.log 2 q - 52 := by
      unfold unit
      omega
    have hlarge := (coefficient_bounds hq hunit).1
    have hround := le_roundEven hlarge
    have hmax : infinityMagnitude ≤ magnitude (roundEven (q * 2 ^ (-unit q))) (unit q) := by
      unfold infinityMagnitude magnitude
      simp only [Nat.shiftLeft_eq] at hround ⊢
      omega
    rw [min_eq_right hmax] at hfinite
    cases negative <;> exact absurd hfinite (by decide)

/-! ## Integers -/

theorem exists_isForm {m : ℕ} (hm : 0 < m) (h : m < 1 <<< 53) :
    ∃ c e, IsForm c e ∧ (m : ℚ) = c * 2 ^ e := by
  have hlog : m.log2 < 53 := (Nat.log2_lt hm.ne').2 (by simpa [Nat.shiftLeft_eq] using h)
  obtain ⟨k, hk⟩ : ∃ k, m.log2 + k = 52 := ⟨52 - m.log2, by omega⟩
  have h1 : 2 ^ m.log2 * 2 ^ k ≤ m * 2 ^ k := Nat.mul_le_mul_right _ (Nat.log2_self_le hm.ne')
  have h2 : m * 2 ^ k < 2 ^ (m.log2 + 1) * 2 ^ k :=
    Nat.mul_lt_mul_of_pos_right Nat.lt_log2_self (by positivity)
  rw [← Nat.pow_add, hk] at h1
  rw [← Nat.pow_add, show m.log2 + 1 + k = 53 by omega] at h2
  refine ⟨m * 2 ^ k, -k, ⟨by omega, by omega, ?_, .inr ?_⟩, ?_⟩
  · simpa [Nat.shiftLeft_eq] using h2
  · simpa [Nat.shiftLeft_eq] using h1
  · rw [Nat.cast_mul, Nat.cast_pow, Nat.cast_ofNat, zpow_neg, zpow_natCast]
    field_simp

theorem nearest_natCast {m : ℕ} (h : m < 1 <<< 53) (negative : Bool) :
    (nearest negative m).isFinite = true ∧ (nearest negative m).isNegative = negative
      ∧ (nearest negative m).value = m := by
  have hform : ∃ c e, IsForm c e ∧ (m : ℚ) = c * 2 ^ e := by
    rcases Nat.eq_zero_or_pos m with rfl | hm
    · exact ⟨0, -1074, ⟨le_rfl, by norm_num, by decide, .inl rfl⟩, by simp⟩
    · exact exists_isForm hm h
  obtain ⟨c, e, hform, hm⟩ := hform
  obtain ⟨hfinite, hc, he⟩ := hform.decode negative
  rw [hm, hform.nearest_eq]
  refine ⟨hfinite, (hform.fields negative).1, ?_⟩
  unfold value
  rw [hc, he]

/-- A coefficient that is rounded up to one more bit is half of it at the next exponent. -/
theorem value_of_full {c : ℕ} {e : ℤ} (he : -1074 ≤ e) (hlow : 1 <<< 52 ≤ c) (hhigh : c ≤ 1 <<< 53)
    (h : magnitude c e < infinityMagnitude) (negative : Bool) :
    (ofSignMagnitude negative (magnitude c e)).isNegative = negative
      ∧ (ofSignMagnitude negative (magnitude c e)).value = c * 2 ^ e := by
  have hvalue : ∀ {c e}, IsForm c e →
      (ofSignMagnitude negative (magnitude c e)).isNegative = negative
        ∧ (ofSignMagnitude negative (magnitude c e)).value = c * 2 ^ e := by
    intro c e hform
    obtain ⟨-, hc, hexp⟩ := hform.decode negative
    exact ⟨(hform.fields negative).1, by rw [value, hc, hexp]⟩
  unfold magnitude infinityMagnitude at h
  simp only [Nat.shiftLeft_eq] at h hlow hhigh
  by_cases hc : c < 1 <<< 53
  · refine hvalue ⟨he, by omega, hc, .inr ?_⟩
    rwa [Nat.shiftLeft_eq]
  · have hc' : c = 1 <<< 53 := by
      rw [Nat.shiftLeft_eq] at hc ⊢
      omega
    have hsame : magnitude (1 <<< 53) e = magnitude (1 <<< 52) (e + 1) := by
      unfold magnitude
      simp only [Nat.shiftLeft_eq]
      omega
    have hform : IsForm (1 <<< 52) (e + 1) :=
      ⟨by omega, by simp only [Nat.shiftLeft_eq] at hc'; omega, by decide, .inr le_rfl⟩
    rw [hc', hsame]
    refine ⟨(hvalue hform).1, (hvalue hform).2.trans ?_⟩
    rw [zpow_add₀ two_ne_zero]
    norm_num [Nat.shiftLeft_eq]
    ring

/-- A full coefficient is rounded to no less than an integer of up to 53 bits below it: either all
of these are on its grid, or it is past them anyway. -/
theorem le_roundEven_mul {b : ℕ} (hwidth : b < 1 <<< 53) {q : ℚ} (h : (b : ℚ) ≤ q) {e : ℤ}
    (hfull : 1 <<< 52 ≤ roundEven (q * 2 ^ (-e))) : (b : ℚ) ≤ roundEven (q * 2 ^ (-e)) * 2 ^ e := by
  rcases le_or_gt e 0 with hneg | hpos
  · obtain ⟨k, rfl⟩ := Int.exists_eq_neg_ofNat hneg
    have hscaled : ((b * 2 ^ k : ℕ) : ℚ) ≤ q * 2 ^ (-(-(k : ℤ))) := by
      rw [neg_neg, Nat.cast_mul, Nat.cast_pow, Nat.cast_ofNat, zpow_natCast]
      gcongr
    have hround : ((b * 2 ^ k : ℕ) : ℚ) ≤ roundEven (q * 2 ^ (-(-(k : ℤ)))) := by
      exact_mod_cast le_roundEven hscaled
    rw [Nat.cast_mul, Nat.cast_pow, Nat.cast_ofNat] at hround
    have hpow : (2 : ℚ) ^ (-(k : ℤ)) = (2 ^ k)⁻¹ := by rw [zpow_neg, zpow_natCast]
    rw [hpow, ← div_eq_mul_inv, le_div_iff₀ (by positivity)]
    exact hround
  · have htwo : (2 : ℚ) ≤ 2 ^ e := by
      calc (2 : ℚ) = 2 ^ (1 : ℤ) := (zpow_one 2).symm
        _ ≤ 2 ^ e := zpow_le_zpow_right₀ one_le_two hpos
    have hfull' : ((1 <<< 52 : ℕ) : ℚ) ≤ roundEven (q * 2 ^ (-e)) := by exact_mod_cast hfull
    calc (b : ℚ) ≤ ((1 <<< 53 : ℕ) : ℚ) := by exact_mod_cast hwidth.le
      _ = ((1 <<< 52 : ℕ) : ℚ) * 2 := by norm_num [Nat.shiftLeft_eq]
      _ ≤ _ := by gcongr

/-- Rounding does not lead below an integer of up to 53 bits. -/
theorem le_value_nearest {b : ℕ} (hb : 0 < b) (hwidth : b < 1 <<< 53) {q : ℚ} (h : (b : ℚ) ≤ q)
    {negative : Bool} (hfinite : (nearest negative q).isFinite = true) :
    (nearest negative q).isNegative = negative ∧ (b : ℚ) ≤ (nearest negative q).value := by
  have hone : (1 : ℚ) ≤ q := le_trans (by exact_mod_cast hb) h
  have hq : 0 < q := lt_of_lt_of_le one_pos hone
  have hlog : 0 ≤ Int.log 2 q := (Int.zpow_le_iff_le_log one_lt_two hq).1 (by simpa using hone)
  have hunit : unit q = Int.log 2 q - 52 := by
    unfold unit
    omega
  obtain ⟨hlow, hhigh⟩ := coefficient_bounds hq hunit
  have hfull := le_roundEven hlow
  unfold nearest at hfinite ⊢
  rw [if_neg hq.ne'] at hfinite ⊢
  rcases lt_or_ge (magnitude (roundEven (q * 2 ^ (-unit q))) (unit q)) infinityMagnitude with
    hlt | hge
  · rw [min_eq_left hlt.le]
    obtain ⟨hsign, hvalue⟩ :=
      value_of_full (by omega) hfull (roundEven_le (by positivity) hhigh) hlt negative
    exact ⟨hsign, hvalue ▸ le_roundEven_mul hwidth h hfull⟩
  · rw [min_eq_right hge] at hfinite
    cases negative <;> exact absurd hfinite (by decide)

theorem ratio_eq_value (x : Binary64) : (x.ratio.1 : ℚ) / x.ratio.2 = x.value := by
  unfold ratio
  rw [scaleBinary_eq, Nat.cast_one, div_one]
  rfl

theorem le_natAbs_round {x : Binary64} {b : ℕ} (h : (b : ℚ) ≤ x.value) :
    (b : ℤ) ≤ if x.isNegative then -x.round else x.round := by
  have hpos : 0 < x.ratio.2 := scaleBinary_snd_pos _ one_pos _
  rw [← ratio_eq_value, le_div_iff₀ (by exact_mod_cast hpos)] at h
  have hnum : b * x.ratio.2 ≤ x.ratio.1 := by exact_mod_cast h
  have hquotient : b ≤ (2 * x.ratio.1 + x.ratio.2) / (2 * x.ratio.2) := by
    rw [Nat.le_div_iff_mul_le (by omega)]
    nlinarith
  unfold round
  dsimp only
  split_ifs
  · rw [neg_neg]
    exact_mod_cast hquotient
  · exact_mod_cast hquotient

theorem round_of_value {x : Binary64} {m : ℕ} (h : x.value = m) :
    x.round = if x.isNegative then -(m : ℤ) else m := by
  have hpos : 0 < x.ratio.2 := scaleBinary_snd_pos _ one_pos _
  have hvalue := (ratio_eq_value x).trans h
  rw [div_eq_iff (by exact_mod_cast hpos.ne')] at hvalue
  have hnum : x.ratio.1 = m * x.ratio.2 := by exact_mod_cast hvalue
  have hquotient : (2 * x.ratio.1 + x.ratio.2) / (2 * x.ratio.2) = m := by
    rw [hnum]
    refine Nat.div_eq_of_lt_le ?_ ?_ <;> nlinarith
  unfold round
  simp only [hquotient]

/-- An integer of up to 53 bits is a floating-point number. -/
theorem round_nearest_natCast {m : ℕ} (h : m < 1 <<< 53) (negative : Bool) :
    (nearest negative m).round = if negative then -(m : ℤ) else m := by
  obtain ⟨-, hsign, hvalue⟩ := nearest_natCast h negative
  rw [round_of_value hvalue, hsign]

end TypedDoc.Numeral.Binary64

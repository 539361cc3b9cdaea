import TypedDoc.Proofs.Digits
import TypedDoc.Timestamp

/-!
# Moments by their texts

The text of a moment determines it (`Timestamp.text_injective`). A day is determined by its date,
which counts the days of an era of 400 years by years that begin in March (`Date.toDay_ofDay`); the
year of a day is found by taking away the leap days before it, and the day of the year then lies
between 0 and 365 (`Date.yearOfEra_bounds`). In the text all but the year have a fixed width, so it
comes apart from the end.
-/

namespace TypedDoc.Timestamp

open Numeral.Integer

namespace Date

/-- The year of a day of an era: there are as many centuries as the days say, and one leap day more
or none in the fourth years. -/
theorem yearOfEra_bounds {day year : Int} (hlow : 0 ≤ day) (hhigh : day < 146097)
    (hyear : year = (day - day / 1460 + day / 36524 - day / 146096) / 365) :
    (0 ≤ year ∧ year < 400) ∧ 0 ≤ day - (365 * year + year / 4 - year / 100)
      ∧ day - (365 * year + year / 4 - year / 100) ≤ 365 := by
  have hcentury : year / 100 = day / 36524 - day / 146096 := by
    have hcases : day / 36524 = 0 ∨ day / 36524 = 1 ∨ day / 36524 = 2 ∨ day / 36524 = 3
        ∨ day / 36524 = 4 := by omega
    rcases hcases with h | h | h | h | h <;> omega
  have hfourth : year / 4 ≤ day / 1460 ∧ day / 1460 ≤ year / 4 + 1 := by omega
  omega

/-- The date of a day of a year that begins in March. -/
def ofMarch (year day : Int) : Date :=
  let fromMarch := (5 * day + 2) / 153
  let month := if fromMarch < 10 then fromMarch + 3 else fromMarch - 9
  ⟨year + (if month ≤ 2 then 1 else 0), month, day - (153 * fromMarch + 2) / 5 + 1⟩

theorem ofMarch_bounds (year : Int) {day : Int} (hlow : 0 ≤ day) (hhigh : day ≤ 365) :
    (1 ≤ (ofMarch year day).month ∧ (ofMarch year day).month ≤ 12)
      ∧ 1 ≤ (ofMarch year day).day ∧ (ofMarch year day).day ≤ 31 := by
  simp only [ofMarch]
  split_ifs <;> omega

theorem toDay_ofMarch {era year day : Int} (hyear : 0 ≤ year ∧ year < 400) (hlow : 0 ≤ day)
    (hhigh : day ≤ 365) : (ofMarch (year + 400 * era) day).toDay =
      era * 146097 + (365 * year + year / 4 - year / 100 + day) - 719468 := by
  have hera : (year + 400 * era) / 400 = era := by omega
  have hyear' : (year + 400 * era) % 400 = year := by omega
  have hmarch : (5 * day + 2) / 153 ≤ 11 ∧ 0 ≤ (5 * day + 2) / 153 := by omega
  by_cases h : (5 * day + 2) / 153 < 10
  · have hmonth : ¬ (5 * day + 2) / 153 + 3 ≤ 2 := by omega
    simp only [toDay, ofMarch, if_pos h, if_neg hmonth, if_pos (Int.not_le.1 hmonth), Int.add_zero,
      Int.sub_zero, hera, hyear', Int.add_sub_cancel]
    omega
  · have hmonth : (5 * day + 2) / 153 - 9 ≤ 2 := by omega
    simp only [toDay, ofMarch, if_neg h, if_pos hmonth, if_neg (Int.not_lt.2 hmonth),
      Int.add_sub_cancel, hera, hyear', Int.sub_add_cancel]
    omega

theorem ofDay_eq (n : Int) : ∃ era year day : Int, (0 ≤ year ∧ year < 400) ∧ (0 ≤ day ∧ day ≤ 365)
    ∧ n = era * 146097 + (365 * year + year / 4 - year / 100 + day) - 719468
    ∧ ofDay n = ofMarch (year + 400 * era) day := by
  obtain ⟨hyear, hday⟩ :=
    @yearOfEra_bounds ((n + 719468) % 146097) _ (by omega) (by omega) rfl
  exact ⟨(n + 719468) / 146097, _, _, hyear, hday, by omega, rfl⟩

theorem toDay_ofDay (n : Int) : (ofDay n).toDay = n := by
  obtain ⟨era, year, day, hyear, hday, hn, hdate⟩ := ofDay_eq n
  rw [hdate, toDay_ofMarch hyear hday.1 hday.2, ← hn]

theorem ofDay_bounds (n : Int) : (1 ≤ (ofDay n).month ∧ (ofDay n).month ≤ 12)
    ∧ 1 ≤ (ofDay n).day ∧ (ofDay n).day ≤ 31 := by
  obtain ⟨era, year, day, -, hday, -, hdate⟩ := ofDay_eq n
  rw [hdate]
  exact ofMarch_bounds _ hday.1 hday.2

end Date

section Texts

variable {width n n' : Nat}

theorem number_replicate (k : Nat) : number 0 (List.replicate k '0') = 0 := by
  induction k with
  | zero => rfl
  | succ k ih => exact ih

theorem padded_injective (width : Nat) : Function.Injective (padded width) := by
  have hnumber : ∀ n, number 0 (padded width n).toList = n := by
    intro n
    have happend : ∀ cs ds : List Char, number 0 (cs ++ ds) = number (number 0 cs) ds :=
      fun cs ds => List.foldl_append
    simp only [padded, String.toList_ofList]
    rw [happend, number_replicate, number_toDigits]
  intro n n' h
  rw [← hnumber n, h, hnumber]

theorem length_padded (h : (Nat.toDigits 10 n).length ≤ width) :
    (padded width n).length = width := by
  simp only [padded, String.length_ofList, List.length_append, List.length_replicate]
  omega

theorem isDigit_of_mem_padded {c : Char} (h : c ∈ (padded width n).toList) : c.isDigit = true := by
  simp only [padded, String.toList_ofList] at h
  rcases List.mem_append.1 h with h | h
  · rw [(List.mem_replicate.1 h).2]
    rfl
  · exact Nat.isDigit_of_mem_toDigits (by decide) (by decide) h

theorem append_inj_of_length {a a' b b' : String} (h : a ++ b = a' ++ b')
    (hlength : b.length = b'.length) : a = a' ∧ b = b' := by
  rw [← String.toList_inj, String.toList_append, String.toList_append] at h
  rw [← String.toList_inj, ← String.toList_inj]
  exact List.append_inj' h hlength

/-- The last one of some parts, if its width is fixed. -/
theorem append_padded_inj {a a' mark : String} (hn : (Nat.toDigits 10 n).length ≤ width)
    (hn' : (Nat.toDigits 10 n').length ≤ width)
    (h : a ++ mark ++ padded width n = a' ++ mark ++ padded width n') : a = a' ∧ n = n' := by
  obtain ⟨h, hpadded⟩ := append_inj_of_length h (by rw [length_padded hn, length_padded hn'])
  exact ⟨(append_inj_of_length h rfl).1, padded_injective width hpadded⟩

theorem head?_yearText (y : Int) : ((yearText y).toList.head? = some '-' ↔ y < 0)
    ∧ ((yearText y).toList.head? = some '+' ↔ 9999 < y) := by
  have hdigit : ∀ c : Char, c.isDigit = false → (padded 4 y.natAbs).toList.head? ≠ some c := by
    intro c hc h
    rw [isDigit_of_mem_padded (List.mem_of_mem_head? h)] at hc
    cases hc
  unfold yearText
  split_ifs with hneg hfour
  · rw [String.toList_append]
    simp [hneg]
    omega
  · simp [hneg, hdigit, hfour]
  · rw [String.toList_append]
    simp
    omega

theorem yearText_injective : Function.Injective yearText := by
  intro y y' h
  have hneg : y < 0 ↔ y' < 0 := by rw [← (head?_yearText y).1, h, (head?_yearText y').1]
  have hfar : 9999 < y ↔ 9999 < y' := by rw [← (head?_yearText y).2, h, (head?_yearText y').2]
  have hpadded : padded 4 y.natAbs = padded 4 y'.natAbs := by
    unfold yearText at h
    by_cases hy : y < 0
    · rw [if_pos hy, if_pos (hneg.1 hy), String.append_right_inj] at h
      exact h
    · rw [if_neg hy, if_neg (mt hneg.2 hy)] at h
      by_cases hy' : 9999 < y
      · rw [if_neg (Int.not_le.2 hy'), if_neg (Int.not_le.2 (hfar.1 hy')),
          String.append_right_inj] at h
        exact h
      · rw [if_pos (Int.not_lt.1 hy'), if_pos (Int.not_lt.1 (mt hfar.2 hy'))] at h
        exact h
  have habs := padded_injective 4 hpadded
  omega

end Texts

theorem date_of_toSeconds {t t' : Timestamp} (h : t.toSeconds = t'.toSeconds) :
    t.date = t'.date ∧ t.timeOfDay / 1000 = t'.timeOfDay / 1000 := by
  have htwo : ∀ n, n < 100 → (Nat.toDigits 10 n).length ≤ 2 := fun n hn =>
    (Nat.length_toDigits_le_iff (by decide) (by decide)).2 hn
  have hdate : ∀ t : Timestamp, (1 ≤ t.date.month ∧ t.date.month ≤ 12)
      ∧ 1 ≤ t.date.day ∧ t.date.day ≤ 31 := fun t => Date.ofDay_bounds _
  have htime : ∀ t : Timestamp, t.timeOfDay / 1000 < 86400 := fun t => by
    unfold timeOfDay
    omega
  have hd := hdate t
  have hd' := hdate t'
  have ht := htime t
  have ht' := htime t'
  unfold toSeconds at h
  obtain ⟨h, hsecond⟩ := append_padded_inj (htwo _ (by omega)) (htwo _ (by omega)) h
  obtain ⟨h, hminute⟩ := append_padded_inj (htwo _ (by omega)) (htwo _ (by omega)) h
  obtain ⟨h, hhour⟩ := append_padded_inj (htwo _ (by omega)) (htwo _ (by omega)) h
  obtain ⟨h, hday⟩ := append_padded_inj (htwo _ (by omega)) (htwo _ (by omega)) h
  obtain ⟨h, hmonth⟩ := append_padded_inj (htwo _ (by omega)) (htwo _ (by omega)) h
  have hyear := yearText_injective h
  have hmonth' : t.date.month = t'.date.month := by omega
  have hday' : t.date.day = t'.date.day := by omega
  refine ⟨?_, by omega⟩
  rcases hx : t.date with ⟨year, month, day⟩
  rcases hx' : t'.date with ⟨year', month', day'⟩
  rw [hx, hx'] at hyear hmonth' hday'
  exact congr (congrArg₂ Date.mk hyear hmonth') hday'

theorem text_injective : Function.Injective text := by
  intro t t' h
  have hthree : ∀ t : Timestamp, (Nat.toDigits 10 (t.timeOfDay % 1000)).length ≤ 3 := fun t =>
    (Nat.length_toDigits_le_iff (by decide) (by decide)).2 (Nat.mod_lt _ (by decide))
  obtain ⟨hseconds, hmillis⟩ := append_padded_inj (hthree t) (hthree t') h
  obtain ⟨hdate, hseconds⟩ := date_of_toSeconds hseconds
  have hday : t.millis / 86400000 = t'.millis / 86400000 := by
    rw [← Date.toDay_ofDay (t.millis / 86400000), ← Date.toDay_ofDay (t'.millis / 86400000)]
    exact congrArg Date.toDay hdate
  unfold timeOfDay at hmillis hseconds
  have heq : t.millis = t'.millis := by omega
  obtain ⟨millis, _, _⟩ := t
  obtain ⟨millis', _, _⟩ := t'
  obtain rfl : millis = millis' := heq
  rfl

end TypedDoc.Timestamp

import Mathlib.Data.String.Basic
import TypedDoc.Proofs.Utf8

/-!
# The order of strings in their bytes

Strings are compared by their code points, and their bytes in UTF-8 compare in the same way: a
greater character has the greater byte at the first place where the two differ, whatever comes after
them (`utf8EncodeChar_append_lt`). So keys come in one order, whether it is that of the strings or
that of their bytes (`utf8_lt_utf8_iff`).
-/

namespace TypedDoc.Text

theorem cons_ofNat_lt {m n : Nat} (hm : m < 256) (hn : n < 256) {s t : List UInt8}
    (h : m < n ∨ m = n ∧ s < t) : UInt8.ofNat m :: s < UInt8.ofNat n :: t := by
  have hlt : UInt8.ofNat m < UInt8.ofNat n ↔ m < n := by
    rw [UInt8.lt_iff_toNat_lt, UInt8.toNat_ofNat', UInt8.toNat_ofNat']
    omega
  rw [List.cons_lt_cons_iff, hlt]
  rcases h with h | ⟨rfl, h⟩
  · exact .inl h
  · exact .inr ⟨rfl, h⟩

theorem utf8EncodeChar_append_lt {c d : Char} (h : c < d) (s t : List UInt8) :
    String.utf8EncodeChar c ++ s < String.utf8EncodeChar d ++ t := by
  have hlt : c.val.toNat < d.val.toNat := UInt32.lt_iff_toNat_lt.1 (Char.lt_def.1 h)
  have hd : d.val.toNat < 1114112 := by
    rcases d.valid with h | ⟨-, h⟩
    · exact Nat.lt_trans h (by decide)
    · exact h
  have hhead : ∀ {m n : Nat} {s t : List UInt8}, m < n → n < 256 →
      UInt8.ofNat m :: s < UInt8.ofNat n :: t := fun hmn hn =>
    cons_ofNat_lt (by omega) hn (.inl hmn)
  unfold String.utf8EncodeChar
  generalize c.val.toNat = v, d.val.toNat = w at hlt hd
  dsimp only
  -- of two characters with different numbers of bytes, the longer one has the greater first byte
  split_ifs <;> first
    | omega
    | exact hhead (by omega) (by omega)
    | simp only [List.cons_append, List.nil_append]
  · by_cases h1 : v / 64 < w / 64
    · exact hhead (by omega) (by omega)
    · refine cons_ofNat_lt (by omega) (by omega) (.inr ⟨by omega, ?_⟩)
      exact hhead (by omega) (by omega)
  · by_cases h1 : v / 4096 < w / 4096
    · exact hhead (by omega) (by omega)
    · refine cons_ofNat_lt (by omega) (by omega) (.inr ⟨by omega, ?_⟩)
      by_cases h2 : v / 64 < w / 64
      · exact hhead (by omega) (by omega)
      · refine cons_ofNat_lt (by omega) (by omega) (.inr ⟨by omega, ?_⟩)
        exact hhead (by omega) (by omega)
  · by_cases h1 : v / 262144 < w / 262144
    · exact hhead (by omega) (by omega)
    · refine cons_ofNat_lt (by omega) (by omega) (.inr ⟨by omega, ?_⟩)
      by_cases h2 : v / 4096 < w / 4096
      · exact hhead (by omega) (by omega)
      · refine cons_ofNat_lt (by omega) (by omega) (.inr ⟨by omega, ?_⟩)
        by_cases h3 : v / 64 < w / 64
        · exact hhead (by omega) (by omega)
        · refine cons_ofNat_lt (by omega) (by omega) (.inr ⟨by omega, ?_⟩)
          exact hhead (by omega) (by omega)

theorem utf8_lt_utf8 {cs ds : List Char} (h : cs < ds) : utf8 cs < utf8 ds := by
  induction h with
  | @nil d ds =>
    have hne : utf8 (d :: ds) ≠ [] := by
      intro hnil
      have hsize := d.utf8Size_pos
      rw [utf8_cons, List.append_eq_nil_iff, ← List.length_eq_zero_iff,
        String.length_utf8EncodeChar] at hnil
      omega
    obtain ⟨b, bs, hb⟩ := List.exists_cons_of_ne_nil hne
    rw [hb]
    exact .nil
  | rel h => exact utf8EncodeChar_append_lt h _ _
  | cons _ ih => exact List.append_left_lt ih

theorem utf8_inj {cs ds : List Char} : utf8 cs = utf8 ds ↔ cs = ds := by
  refine ⟨fun h => ?_, fun h => h ▸ rfl⟩
  rcases lt_trichotomy cs ds with hlt | heq | hgt
  · exact absurd (utf8_lt_utf8 hlt) (h ▸ List.lt_irrefl _)
  · exact heq
  · exact absurd (utf8_lt_utf8 hgt) (h ▸ List.lt_irrefl _)

/-- Two strings compare as their bytes do. -/
theorem utf8_lt_utf8_iff {a b : String} : utf8 a.toList < utf8 b.toList ↔ a < b := by
  rw [String.lt_iff_toList_lt]
  refine ⟨fun h => ?_, utf8_lt_utf8⟩
  rcases lt_trichotomy a.toList b.toList with hlt | heq | hgt
  · exact hlt
  · rw [heq] at h
    exact absurd h (List.lt_irrefl _)
  · exact absurd h (List.lt_asymm (utf8_lt_utf8 hgt))

end TypedDoc.Text

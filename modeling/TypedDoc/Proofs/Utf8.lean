import Mathlib.Data.List.Basic
import TypedDoc.Text.Blank

/-!
# ASCII in the bytes of text

An ASCII character is one byte, and no byte of any other character looks like one. So what is
looked for among ASCII bytes is found in the bytes of a text exactly where it stands in the text.
-/

namespace TypedDoc.Text

/-- The byte of an ASCII character. -/
def byte (c : Char) : UInt8 := UInt8.ofNat c.toNat

theorem toNat_byte {c : Char} (h : c.toNat < 128) : (byte c).toNat = c.toNat := by
  have hlt : c.toNat < 256 := by omega
  simp [byte, Nat.mod_eq_of_lt hlt]

theorem byte_ofNat {n : Nat} (h : n < 128) : byte (Char.ofNat n) = UInt8.ofNat n := by
  have hvalid : n.isValidChar := .inl (by omega)
  unfold byte
  rw [Char.ofNat, dif_pos hvalid]
  rfl

theorem byte_eq_iff {c d : Char} (hc : c.toNat < 128) (hd : d.toNat < 128) :
    byte c = byte d ↔ c = d := by
  refine ⟨fun h => ?_, fun h => h ▸ rfl⟩
  have hn : c.toNat = d.toNat := by rw [← toNat_byte hc, ← toNat_byte hd, h]
  exact Char.toNat_inj.1 hn

theorem utf8EncodeChar_of_lt {c : Char} (h : c.toNat < 128) :
    String.utf8EncodeChar c = [byte c] := by
  have hle : c.val.toNat ≤ 127 := Nat.le_of_lt_succ h
  simp only [String.utf8EncodeChar, hle, ↓reduceIte]
  rfl

theorem le_of_mem_utf8EncodeChar {c : Char} (h : 128 ≤ c.toNat) {b : UInt8}
    (hb : b ∈ String.utf8EncodeChar c) : 128 ≤ b.toNat := by
  have hle : ¬ c.val.toNat ≤ 127 := Nat.not_le.2 h
  simp only [String.utf8EncodeChar, hle, ↓reduceIte] at hb
  split_ifs at hb <;> simp only [List.mem_cons, List.not_mem_nil, or_false] at hb <;>
    rcases hb with rfl | hb <;>
    grind [UInt8.toNat_ofNat']

theorem utf8_cons_of_lt {c : Char} (h : c.toNat < 128) (cs : List Char) :
    utf8 (c :: cs) = byte c :: utf8 cs := by
  rw [utf8_cons, utf8EncodeChar_of_lt h, List.singleton_append]

theorem utf8_eq_map {cs : List Char} (h : ∀ c ∈ cs, c.toNat < 128) : utf8 cs = cs.map byte := by
  induction cs with
  | nil => rfl
  | cons c cs ih =>
    rw [List.forall_mem_cons] at h
    rw [utf8_cons_of_lt h.1, ih h.2, List.map_cons]

/-- What a text starts with: the byte of an ASCII character, or one that is no such byte. -/
theorem utf8_cons_cases (c : Char) (cs : List Char) :
    (c.toNat < 128 ∧ utf8 (c :: cs) = byte c :: utf8 cs) ∨
      128 ≤ c.toNat ∧ ∃ b bs, utf8 (c :: cs) = b :: (bs ++ utf8 cs)
        ∧ ∀ x ∈ b :: bs, 128 ≤ x.toNat := by
  rcases Nat.lt_or_ge c.toNat 128 with h | h
  · exact .inl ⟨h, utf8_cons_of_lt h cs⟩
  · have hmem : ∀ b ∈ String.utf8EncodeChar c, 128 ≤ b.toNat := fun b =>
      le_of_mem_utf8EncodeChar h
    rcases he : String.utf8EncodeChar c with _ | ⟨b, bs⟩
    · have hlen := congrArg List.length he
      rw [String.length_utf8EncodeChar] at hlen
      exact absurd hlen (Nat.ne_of_gt c.utf8Size_pos)
    · refine .inr ⟨h, b, bs, ?_, he ▸ hmem⟩
      rw [utf8_cons, he, List.cons_append]

theorem ascii_of_utf8 {cs : List Char} (h : ∀ b ∈ utf8 cs, b.toNat < 128) :
    ∀ c ∈ cs, c.toNat < 128 := by
  induction cs with
  | nil => simp
  | cons c cs ih =>
    rcases utf8_cons_cases c cs with ⟨hc, he⟩ | ⟨hc, b, bs, he, hb⟩ <;> rw [he] at h
    · exact List.forall_mem_cons.2 ⟨hc, ih (List.forall_mem_cons.1 h).2⟩
    · have hlow := h b List.mem_cons_self
      have hhigh := hb b List.mem_cons_self
      omega

theorem ne_byte_of_le {c : Char} (h : c.toNat < 128) {b : UInt8} (hb : 128 ≤ b.toNat) :
    b ≠ byte c := by
  rintro rfl
  rw [toNat_byte h] at hb
  omega

theorem byte_mem_utf8_iff {c : Char} (h : c.toNat < 128) {cs : List Char} :
    byte c ∈ utf8 cs ↔ c ∈ cs := by
  induction cs with
  | nil => simp
  | cons d cs ih =>
    rcases utf8_cons_cases d cs with ⟨hd, he⟩ | ⟨hd, b, bs, he, hb⟩ <;> rw [he]
    · rw [List.mem_cons, ih, byte_eq_iff h hd, List.mem_cons]
    · have hcd : c ≠ d := by
        rintro rfl
        omega
      have hno : byte c ∉ b :: bs := fun hm => ne_byte_of_le h (hb _ hm) rfl
      rw [← List.cons_append, List.mem_append, or_iff_right hno, ih, List.mem_cons,
        or_iff_right hcd]

theorem prefix_utf8_iff {ds : List Char} (h : ∀ d ∈ ds, d.toNat < 128) {cs : List Char} :
    utf8 ds <+: utf8 cs ↔ ds <+: cs := by
  induction ds generalizing cs with
  | nil => simp
  | cons d ds ih =>
    rw [List.forall_mem_cons] at h
    rw [utf8_cons_of_lt h.1]
    rcases cs with _ | ⟨c, cs⟩
    · simp
    · rcases utf8_cons_cases c cs with ⟨hc, he⟩ | ⟨hc, b, bs, he, hb⟩ <;> rw [he]
      · rw [List.cons_prefix_cons, List.cons_prefix_cons, byte_eq_iff h.1 hc, ih h.2]
      · have hdc : d ≠ c := by
          rintro rfl
          omega
        rw [List.cons_prefix_cons, List.cons_prefix_cons, iff_false_intro hdc, false_and,
          iff_false]
        exact fun hp => ne_byte_of_le h.1 (hb b List.mem_cons_self) hp.1.symm

end TypedDoc.Text

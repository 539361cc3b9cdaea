import TypedDoc.Decode.Scalar
import TypedDoc.Proofs.Bytes
import TypedDoc.Proofs.Numerals
import TypedDoc.Value.Text

/-!
# Scalars as they are written

Each rule that reads a text gives back the value whose text it is: integers, floating-point numbers,
moments as their milliseconds, identifiers, bytes and the letters of options. A moment goes through
a floating-point number on the way, which is exact since its milliseconds have less than 53 bits
(`date_of_denotes`).
-/

namespace TypedDoc

namespace Text

theorem trimChars_eq_self {cs : List Char} (h : ∀ c ∈ cs, isBlank c = false) :
    trimChars cs = cs := by
  have hdrop : ∀ ds : List Char, (∀ c ∈ ds, isBlank c = false) → ds.dropWhile isBlank = ds := by
    intro ds hds
    rcases ds with _ | ⟨c, ds⟩
    · rfl
    · exact List.dropWhile_cons_of_neg (by simp [hds c List.mem_cons_self])
  unfold trimChars
  rw [hdrop cs h, hdrop _ fun c hc => h c (List.mem_reverse.1 hc), List.reverse_reverse]

theorem isBlank_of_isNumeral {c : Char} (h : Numeral.IsNumeral c) : isBlank c = false := by
  rcases h with h | h
  · obtain ⟨hlow, hhigh⟩ := Numeral.Integer.isDigit_iff.1 h
    have hlow' : 48 ≤ c.toNat := hlow
    have hhigh' : c.toNat ≤ 57 := hhigh
    unfold isBlank
    simp
    omega
  · simp only [List.mem_cons, List.not_mem_nil, or_false] at h
    rcases h with rfl | rfl | rfl | rfl <;> rfl

end Text

open Numeral (Binary64 Decimal Layout IsNumeral)

theorem isNumeral_toString (n : ℤ) : ∀ c ∈ (toString n).toList, IsNumeral c := by
  rw [Numeral.Integer.toList_toString]
  split_ifs
  · exact List.forall_mem_cons.2 ⟨.inr (by decide), Layout.isNumeral_toDigits _⟩
  · exact Layout.isNumeral_toDigits _

theorem trim_toString (n : ℤ) : Text.trimChars (toString n).toList = (toString n).toList :=
  Text.trimChars_eq_self fun c hc => Text.isBlank_of_isNumeral (isNumeral_toString n c hc)

theorem trim_number (layout : Layout) (x : Binary64) :
    Text.trimChars (layout.text x).toList = (layout.text x).toList := by
  refine Text.trimChars_eq_self ?_
  unfold Layout.text
  split_ifs
  · unfold Layout.finite
    rw [String.toList_ofList]
    intro c hc
    refine Text.isBlank_of_isNumeral ?_
    split_ifs at hc
    · rcases List.mem_cons.1 hc with rfl | hc
      · exact .inr (by decide)
      · exact layout.isNumeral_magnitude x c hc
    · exact layout.isNumeral_magnitude x c hc
  · simp [Text.isBlank]
  · simp [Text.isBlank]
  · simp [Text.isBlank]

namespace Decode

theorem integer_text (tag : String) (n : Int64) :
    integer tag (some (Numeral.Integer.text n)) = .ok n := by
  have hread := Numeral.Integer.read_text n
  unfold Numeral.Integer.text at hread ⊢
  unfold integer
  simp only [trim_toString, hread]
  rfl

theorem number_text (tag : String) (layout : Layout) (x : Binary64) :
    number tag (some (layout.text x)) = .ok x.canonical := by
  unfold number decimal
  simp only [trim_number, Decimal.read_text]
  rfl

/-- A text that denotes the milliseconds of a moment is read as the moment. -/
theorem date_of_denotes (tag : String) {text : String} {t : Timestamp}
    (h : Numeral.Integer.Denotes (Text.trimChars text.toList) t.millis) :
    date tag (some text) = .ok t := by
  have hlow := t.earliest_le
  have hhigh := t.le_latest
  obtain ⟨negative, hread, hneg, hpos⟩ := Decimal.read_of_denotes h
  have hwidth : t.millis.natAbs < 1 <<< 53 := by
    rw [Nat.shiftLeft_eq]
    omega
  obtain ⟨hfinite, -, -⟩ := Binary64.nearest_natCast hwidth negative
  have hround : (Binary64.nearest negative t.millis.natAbs).round = t.millis := by
    rw [Binary64.round_nearest_natCast hwidth]
    cases negative with
    | false =>
      have hnonneg : 0 ≤ t.millis := not_lt.1 fun hlt => Bool.false_ne_true (hneg hlt)
      rw [if_neg Bool.false_ne_true]
      omega
    | true =>
      have hnonpos : t.millis ≤ 0 := not_lt.1 fun hlt => Bool.false_ne_true (hpos hlt).symm
      rw [if_pos rfl]
      omega
  have hmillis : Timestamp.ofMillis? t.millis = some t := dif_pos ⟨hlow, hhigh⟩
  have hdecimal : decimal tag text = .ok (.nearest negative t.millis.natAbs) := by
    unfold decimal
    rw [hread]
    rfl
  rw [date_some]
  simp only [hdecimal, bind, Except.bind, hfinite, hround, hmillis]
  rfl

/-- The milliseconds of a moment are read back as the moment. -/
theorem date_millis (tag : String) (t : Timestamp) :
    date tag (some (toString t.millis)) = .ok t := by
  refine date_of_denotes tag ?_
  rw [trim_toString]
  exact Numeral.Integer.denotes_toString t.millis

theorem binary_base64 {b : Binary} (h : b.subtype = 0) : binary (some b.base64) = .ok b := by
  obtain ⟨bytes, subtype⟩ := b
  obtain rfl : subtype = 0 := h
  unfold binary Binary.read Binary.base64
  simp only [String.toList_ofList, Text.Base64.decode_encode]

end Decode

theorem ObjectId.read_hex (o : ObjectId) : read o.hex = .ok o := by
  have htrim : Text.trimChars (Text.Hex.encode o.bytes) = Text.Hex.encode o.bytes := by
    refine Text.trimChars_eq_self fun c hc => ?_
    obtain ⟨n, hn, rfl⟩ := Text.Hex.mem_encode hc
    exact (Text.Hex.digit_spec n hn).2.1
  have hlength : ((Text.Hex.encode o.bytes).map Text.byte).length = 24 := by
    rw [List.length_map, Text.Hex.length_encode, o.length_bytes]
  have hdecode : decode o.hex = .ok o := by
    unfold decode hex
    simp only [String.toList_ofList, htrim, Text.Hex.utf8_encode, hlength, Text.Hex.decode?_encode,
      o.length_bytes]
    rfl
  unfold read
  rw [hdecode]
  rfl

namespace RegexOptions

theorem contains_letters (m : RegexOptions) (o : RegexOption) :
    m.letters.contains o.letter = m.has o := by
  have hall : ∀ o, o ∈ RegexOption.all := by
    rintro (_ | _ | _ | _ | _ | _) <;> decide
  have hletter : ∀ o o' : RegexOption, o'.letter = o.letter → o' = o := by
    rintro (_ | _ | _ | _ | _ | _) (_ | _ | _ | _ | _ | _) <;> decide
  have hmem : o.letter ∈ m.toList.map (·.letter) ↔ m.has o = true := by
    rw [List.mem_map]
    refine ⟨?_, fun h => ⟨o, List.mem_filter.2 ⟨hall o, h⟩, rfl⟩⟩
    rintro ⟨o', ho', heq⟩
    rw [← hletter o o' heq]
    exact (List.mem_filter.1 ho').2
  unfold letters
  rw [String.contains_char_eq, String.toList_ofList, Bool.eq_iff_iff, decide_eq_true_iff, hmem]

theorem bits_le {m : RegexOptions} (h : m.unknown = 0) : m.bits.toNat ≤ 126 := by
  have hunknown : m.bits &&& ~~~126 = 0 := m.unknown_eq ▸ h
  have hknown : m.bits = m.bits &&& 126 := by
    calc m.bits = m.bits &&& (126 ||| ~~~126) := by rw [UInt32.or_not_self, UInt32.and_neg_one]
      _ = m.bits &&& 126 ||| m.bits &&& ~~~126 :=
        UInt32.toBitVec_inj.1 (BitVec.and_or_distrib_left ..)
      _ = m.bits &&& 126 := by rw [hunknown, UInt32.or_zero]
  rw [hknown, UInt32.toNat_and]
  exact Nat.and_le_right

/-- Options without unknown bits are read back from their letters. -/
theorem ofLetters_letters {m : RegexOptions} (h : m.unknown = 0) : ofLetters m.letters = m := by
  have hbits : ∀ n ≤ 126, (RegexOptions.mk (UInt32.ofNat n)).unknown = 0 →
      RegexOption.all.foldl (fun bits o =>
        if (RegexOptions.mk (UInt32.ofNat n)).has o then bits ||| o.bit else bits) 0 =
          UInt32.ofNat n := by
    decide
  have hm := hbits m.bits.toNat (bits_le h)
  rw [UInt32.ofNat_toNat] at hm
  unfold ofLetters
  simp only [contains_letters]
  exact congrArg RegexOptions.mk (hm h)

theorem eq_of_letters_eq {m m' : RegexOptions} (h : m.unknown = 0) (h' : m'.unknown = 0)
    (hletters : m.letters = m'.letters) : m = m' := by
  rw [← ofLetters_letters h, hletters, ofLetters_letters h']

end RegexOptions

end TypedDoc

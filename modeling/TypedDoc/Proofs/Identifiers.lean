import TypedDoc.Proofs.Exporting

/-!
# The text of identifiers

A text is read as an identifier exactly if it is 24 hexadecimal digits, blanks around them aside, and
they are those of the identifier in lower case (`ObjectId.decode_eq_ok_iff`). The length that is
checked first is one in bytes, so other characters can make it up; but none of their bytes is a
digit. As digits come in the order of their numbers, two a byte, identifiers are in the order of
their texts (`Text.Hex.encode_lt_encode_iff`).
-/

namespace TypedDoc

namespace Text

/-- A hexadecimal digit of either case. -/
def IsHexDigit (c : Char) : Prop :=
  '0' ≤ c ∧ c ≤ '9' ∨ 'a' ≤ c ∧ c ≤ 'f' ∨ 'A' ≤ c ∧ c ≤ 'F'

theorem isHexDigit_iff {c : Char} : IsHexDigit c ↔
    48 ≤ c.toNat ∧ c.toNat ≤ 57 ∨ 97 ≤ c.toNat ∧ c.toNat ≤ 102 ∨ 65 ≤ c.toNat ∧ c.toNat ≤ 70 :=
  Iff.rfl

namespace Hex

variable {c : Char} {n : ℕ}

theorem toNat_digit : ∀ n < 16, (digit n).toNat = if n < 10 then 48 + n else 87 + n := by
  decide

theorem digit_lt_digit_iff {m : ℕ} (hm : m < 16) (hn : n < 16) : digit m < digit n ↔ m < n := by
  have hlt : digit m < digit n ↔ (digit m).toNat < (digit n).toNat := Iff.rfl
  rw [hlt, toNat_digit m hm, toNat_digit n hn]
  split_ifs <;> omega

theorem digit_inj {m : ℕ} (hm : m < 16) (hn : n < 16) : digit m = digit n ↔ m = n := by
  rw [← Char.toNat_inj, toNat_digit m hm, toNat_digit n hn]
  split_ifs <;> omega

theorem encode_cons (b : UInt8) (bytes : List UInt8) :
    encode (b :: bytes) = digit (b.toNat / 16) :: digit (b.toNat % 16) :: encode bytes := rfl

/-- A byte has its two digits, so the order of the bytes is that of twice as many digits. -/
theorem encode_lt_encode_iff : ∀ {as bs : List UInt8}, encode as < encode bs ↔ as < bs
  | [], [] => by simp [encode]
  | [], b :: bs => by simp [encode]
  | a :: as, [] => by simp [encode]
  | a :: as, b :: bs => by
    have ha := a.toNat_lt
    have hb := b.toNat_lt
    rw [encode_cons, encode_cons, List.cons_lt_cons_iff, List.cons_lt_cons_iff,
      List.cons_lt_cons_iff, encode_lt_encode_iff, digit_lt_digit_iff (by omega) (by omega),
      digit_lt_digit_iff (by omega) (by omega), digit_inj (by omega) (by omega),
      digit_inj (by omega) (by omega), UInt8.lt_iff_toNat_lt, ← UInt8.toNat_inj]
    have hlt : a.toNat < b.toNat ↔ a.toNat / 16 < b.toNat / 16 ∨
      a.toNat / 16 = b.toNat / 16 ∧ a.toNat % 16 < b.toNat % 16 := by omega
    have heq : a.toNat = b.toNat ↔
      a.toNat / 16 = b.toNat / 16 ∧ a.toNat % 16 = b.toNat % 16 := by omega
    tauto

theorem bounds_of_value? {b : UInt8} (h : value? b = some n) : n < 16 ∧
    (48 ≤ b.toNat ∧ b.toNat ≤ 57 ∨ 97 ≤ b.toNat ∧ b.toNat ≤ 102 ∨ 65 ≤ b.toNat ∧ b.toNat ≤ 70) := by
  unfold value? at h
  simp only [Bool.and_eq_true, decide_eq_true_eq, UInt8.le_iff_toNat_le, UInt8.reduceToNat] at h
  split_ifs at h <;> obtain rfl := Option.some.inj h <;> omega

/-- A digit is that of its number once it is put in lower case. -/
theorem map_digit_value? (h : IsHexDigit c) : (value? (byte c)).map digit = some c.toLower := by
  have hdigit : ∀ k < 10, (value? (byte (Char.ofNat (48 + k)))).map digit =
      some (Char.ofNat (48 + k)).toLower := by decide
  have hletter : ∀ k < 6, ∀ start ∈ [65, 97], (value? (byte (Char.ofNat (start + k)))).map digit =
      some (Char.ofNat (start + k)).toLower := by decide
  have hc : ∀ {start}, start ≤ c.toNat → Char.ofNat (start + (c.toNat - start)) = c := by
    intro start hle
    rw [Nat.add_sub_cancel' hle, Char.ofNat_toNat]
  rcases isHexDigit_iff.1 h with ⟨hlow, hhigh⟩ | ⟨hlow, hhigh⟩ | ⟨hlow, hhigh⟩
  · simpa only [hc hlow] using hdigit (c.toNat - 48) (by omega)
  · simpa only [hc hlow] using hletter (c.toNat - 97) (by omega) 97 (by simp)
  · simpa only [hc hlow] using hletter (c.toNat - 65) (by omega) 65 (by simp)

/-- Pairs of digits are read as the bytes whose digits they are in lower case. -/
theorem exists_decode? : ∀ {cs : List Char}, (∀ c ∈ cs, IsHexDigit c) → cs.length % 2 = 0 →
    ∃ bytes, decode? (cs.map byte) = some bytes ∧ encode bytes = cs.map Char.toLower
  | [], _, _ => ⟨[], rfl, rfl⟩
  | [_], _, hlength => by simp at hlength
  | c :: d :: cs, h, hlength => by
    obtain ⟨hc, hd, hcs⟩ : IsHexDigit c ∧ IsHexDigit d ∧ ∀ c ∈ cs, IsHexDigit c := by simpa using h
    obtain ⟨m, hm, hmc⟩ := Option.map_eq_some_iff.1 (map_digit_value? hc)
    obtain ⟨n, hn, hnd⟩ := Option.map_eq_some_iff.1 (map_digit_value? hd)
    have hlength' : cs.length % 2 = 0 := by
      rw [List.length_cons, List.length_cons] at hlength
      omega
    obtain ⟨bytes, hbytes, hencode⟩ := exists_decode? hcs hlength'
    refine ⟨UInt8.ofNat (16 * m + n) :: bytes, ?_, ?_⟩
    · simp only [List.map_cons, decode?, hm, hn, hbytes]
      rfl
    · have hm16 := (bounds_of_value? hm).1
      have hn16 := (bounds_of_value? hn).1
      have hbyte : (UInt8.ofNat (16 * m + n)).toNat = 16 * m + n := by
        rw [UInt8.toNat_ofNat', Nat.mod_eq_of_lt (by omega)]
      have hhigh : (16 * m + n) / 16 = m := by omega
      have hlow : (16 * m + n) % 16 = n := by omega
      rw [encode_cons, hbyte, hencode, hhigh, hlow, hmc, hnd]
      rfl

theorem exists_value?_of_decode? : ∀ {ds bytes : List UInt8}, decode? ds = some bytes →
    ∀ d ∈ ds, ∃ n, value? d = some n
  | [], _, _ => by simp
  | [_], _, h => by cases h
  | d :: e :: ds, _, h => by
    simp only [decode?, bind, Option.bind_eq_some_iff] at h
    obtain ⟨m, hm, n, hn, bytes, hbytes, -⟩ := h
    exact List.forall_mem_cons.2 ⟨⟨m, hm⟩,
      List.forall_mem_cons.2 ⟨⟨n, hn⟩, exists_value?_of_decode? hbytes⟩⟩

/-- Bytes of a text that are read as digits are digits in the text. -/
theorem isHexDigit_of_decode? {cs : List Char} {bytes : List UInt8}
    (h : decode? (utf8 cs) = some bytes) : ∀ c ∈ cs, IsHexDigit c := by
  have hvalue := exists_value?_of_decode? h
  have hascii : ∀ c ∈ cs, c.toNat < 128 := by
    refine ascii_of_utf8 fun b hb => ?_
    obtain ⟨n, hn⟩ := hvalue b hb
    have := (bounds_of_value? hn).2
    omega
  intro c hc
  obtain ⟨n, hn⟩ := hvalue (byte c) ((byte_mem_utf8_iff (hascii c hc)).2 hc)
  rw [isHexDigit_iff, ← toNat_byte (hascii c hc)]
  exact (bounds_of_value? hn).2

theorem utf8_of_isHexDigit {cs : List Char} (h : ∀ c ∈ cs, IsHexDigit c) :
    utf8 cs = cs.map byte := by
  refine utf8_eq_map fun c hc => ?_
  have := isHexDigit_iff.1 (h c hc)
  omega

end Hex

end Text

namespace ObjectId

/-- The text of an identifier: 24 hexadecimal digits. -/
def IsText (cs : List Char) : Prop := cs.length = 24 ∧ ∀ c ∈ cs, Text.IsHexDigit c

theorem toList_toLower (s : String) : s.toLower.toList = s.toList.map Char.toLower :=
  String.toList_map

theorem decode_eq_ok_iff {text : String} {o : ObjectId} : decode text = .ok o ↔
    IsText (Text.trim text).toList ∧ o.hex = (Text.trim text).toLower := by
  rw [← String.toList_inj, hex, toList_toLower, Text.trim, String.toList_ofList,
    String.toList_ofList]
  generalize hcs : Text.trimChars text.toList = cs
  refine ⟨fun h => ?_, ?_⟩
  · simp only [decode, hcs] at h
    split_ifs at h with hlength
    split at h
    · cases h
    next bytes hbytes =>
    split_ifs at h
    obtain rfl := Except.ok.inj h
    have hdigits := Text.Hex.isHexDigit_of_decode? hbytes
    rw [Text.Hex.utf8_of_isHexDigit hdigits] at hbytes hlength
    rw [List.length_map, ne_eq, not_not] at hlength
    obtain ⟨bytes', hbytes', hencode⟩ := Text.Hex.exists_decode? hdigits (by rw [hlength])
    rw [hbytes] at hbytes'
    obtain rfl := Option.some.inj hbytes'
    exact ⟨⟨hlength, hdigits⟩, hencode⟩
  · rintro ⟨⟨hlength, hdigits⟩, hlower⟩
    obtain ⟨bytes, hbytes, hencode⟩ := Text.Hex.exists_decode? hdigits (by rw [hlength])
    obtain rfl := Text.Hex.encode_injective (hencode.trans hlower.symm)
    simp only [decode, hcs, Text.Hex.utf8_of_isHexDigit hdigits, List.length_map, hlength, hbytes,
      o.length_bytes]
    rfl

theorem read_eq_ok_iff {text : String} {o : ObjectId} : read text = .ok o ↔
    IsText (Text.trim text).toList ∧ o.hex = (Text.trim text).toLower :=
  mapError_eq_ok_iff.trans decode_eq_ok_iff

theorem exists_read {text : String} (h : IsText (Text.trim text).toList) :
    ∃ o, read text = .ok o := by
  obtain ⟨hlength, hdigits⟩ := h
  obtain ⟨bytes, -, hencode⟩ := Text.Hex.exists_decode? hdigits (by rw [hlength])
  have hbytes : bytes.length = 12 := by
    have := congrArg List.length hencode
    rw [Text.Hex.length_encode, List.length_map] at this
    omega
  refine ⟨⟨bytes, hbytes⟩, read_eq_ok_iff.2 ⟨⟨hlength, hdigits⟩, ?_⟩⟩
  rw [← String.toList_inj, hex, hencode, toList_toLower, String.toList_ofList]

/-- Why a text is no identifier: its length in bytes, or else a byte that is no digit. -/
def fault (cs : List Char) : TextFault :=
  if (Text.utf8 cs).length = 24 then .hexDigit else .hexLength (Text.utf8 cs).length

theorem decode_cases (text : String) :
    (∃ o, decode text = .ok o) ∨ decode text = .error (fault (Text.trim text).toList) := by
  rw [Text.trim, String.toList_ofList]
  unfold decode fault
  dsimp only
  by_cases hlength : (Text.utf8 (Text.trimChars text.toList)).length = 24
  · rw [if_neg (not_not.2 hlength), if_pos hlength]
    split
    · exact .inr rfl
    · split_ifs
      · exact .inl ⟨_, rfl⟩
      · exact .inr rfl
  · rw [if_pos hlength, if_neg hlength]
    exact .inr rfl

theorem read_eq_error {text : String} (h : ¬ IsText (Text.trim text).toList) :
    read text = .error (.malformedValue "oid" text (fault (Text.trim text).toList)) := by
  rcases decode_cases text with ⟨o, ho⟩ | herror
  · exact absurd (decode_eq_ok_iff.1 ho).1 h
  · rw [read, herror]
    rfl

/-- Identifiers and their texts correspond to each other. A text is read exactly if it is 24
hexadecimal digits with blanks around them, and what is read has these digits in lower case; the
digits of an identifier are read as the identifier. Every other text is refused, and the error has
it with its blanks. Identifiers are in the order of their digits. -/
theorem hex_corresponds :
    (∀ (text : String) (o : ObjectId), read text = .ok o ↔
        IsText (Text.trim text).toList ∧ o.hex = (Text.trim text).toLower)
      ∧ (∀ text : String, (∃ o, read text = .ok o) ↔ IsText (Text.trim text).toList)
      ∧ (∀ o : ObjectId, read o.hex = .ok o)
      ∧ (∀ text : String, ¬ IsText (Text.trim text).toList →
        read text = .error (.malformedValue "oid" text (fault (Text.trim text).toList)))
      ∧ ∀ a b : ObjectId, a < b ↔ a.hex < b.hex := by
  refine ⟨fun _ _ => read_eq_ok_iff, fun text => ⟨fun ⟨o, ho⟩ => ?_, exists_read⟩, read_hex,
    fun _ => read_eq_error, fun a b => ?_⟩
  · exact (read_eq_ok_iff.1 ho).1
  · rw [String.lt_iff_toList_lt, hex, hex, String.toList_ofList, String.toList_ofList,
      Text.Hex.encode_lt_encode_iff]
    rfl

/-- Twelve characters of 24 bytes. -/
theorem hex_corresponds_accented : read " éééééééééééé" =
    .error (.malformedValue "oid" " éééééééééééé" .hexDigit) := by
  obtain ⟨-, -, -, herror, -⟩ := hex_corresponds
  refine (herror _ fun h => ?_).trans (by rfl)
  exact absurd h.1 (by decide)

end ObjectId

end TypedDoc

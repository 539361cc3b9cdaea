import TypedDoc.Proofs.Utf8
import TypedDoc.Text.Base64
import TypedDoc.Text.Hex

/-!
# Bytes in text

Both text forms of bytes are read back as the bytes they were written for. In base64 a group of
three bytes stands for itself, so the bytes are read group by group (`Base64.decode_encode`); in
hexadecimal every byte does (`Hex.decode?_encode`). Neither form has blanks in it.
-/

namespace TypedDoc.Text

theorem ofNat_eq {b : UInt8} {n : Nat} (h : n = b.toNat) : UInt8.ofNat n = b := by
  rw [h, UInt8.ofNat_toNat]

namespace Base64

/-- What is written for a number is an ASCII character, neither a blank nor padding, and is read as
the number. -/
theorem symbol_spec : ∀ n < 64, (symbol n).toNat < 128 ∧ isAsciiBlank (symbol n) = false
    ∧ byte (symbol n) ≠ pad ∧ value? (byte (symbol n)) = some n := by
  decide

/-- A character of base64 text. -/
def IsLetter (c : Char) : Prop := c = '=' ∨ ∃ n < 64, c = symbol n

theorem IsLetter.toNat_lt {c : Char} (h : IsLetter c) : c.toNat < 128 := by
  rcases h with rfl | ⟨n, hn, rfl⟩
  · decide
  · exact (symbol_spec n hn).1

theorem IsLetter.not_blank {c : Char} (h : IsLetter c) : isAsciiBlank c = false := by
  rcases h with rfl | ⟨n, hn, rfl⟩
  · decide
  · exact (symbol_spec n hn).2.1

theorem isLetter_of_mem_encode {bytes : List UInt8} {c : Char} (h : c ∈ encode bytes) :
    IsLetter c := by
  fun_induction encode bytes with
  | case1 => cases h
  | case2 a =>
    have ha := a.toNat_lt
    simp only [List.mem_cons, List.not_mem_nil, or_false] at h
    rcases h with rfl | rfl | rfl | rfl
    · exact .inr ⟨_, by omega, rfl⟩
    · exact .inr ⟨_, by omega, rfl⟩
    · exact .inl rfl
    · exact .inl rfl
  | case3 a b =>
    have ha := a.toNat_lt
    have hb := b.toNat_lt
    simp only [List.mem_cons, List.not_mem_nil, or_false] at h
    rcases h with rfl | rfl | rfl | rfl
    · exact .inr ⟨_, by omega, rfl⟩
    · exact .inr ⟨_, by omega, rfl⟩
    · exact .inr ⟨_, by omega, rfl⟩
    · exact .inl rfl
  | case4 a b c' rest ih =>
    have ha := a.toNat_lt
    have hb := b.toNat_lt
    have hc := c'.toNat_lt
    simp only [List.mem_cons] at h
    rcases h with rfl | rfl | rfl | rfl | h
    · exact .inr ⟨_, by omega, rfl⟩
    · exact .inr ⟨_, by omega, rfl⟩
    · exact .inr ⟨_, by omega, rfl⟩
    · exact .inr ⟨_, by omega, rfl⟩
    · exact ih h

theorem squeeze_encode (bytes : List UInt8) : squeeze (encode bytes) = encode bytes := by
  unfold squeeze
  refine List.filter_eq_self.2 fun c hc => ?_
  rw [(isLetter_of_mem_encode hc).not_blank]
  rfl

theorem utf8_encode (bytes : List UInt8) : utf8 (encode bytes) = (encode bytes).map byte :=
  utf8_eq_map fun _ hc => (isLetter_of_mem_encode hc).toNat_lt

theorem length_encode_mod (bytes : List UInt8) : (encode bytes).length % 4 = 0 := by
  fun_induction encode bytes with
  | case1 => rfl
  | case4 a b c rest ih =>
    simp only [List.length_cons]
    omega
  | _ => simp

theorem join_first {a : UInt8} {x : Nat} (h : x / 16 = a.toNat % 4) :
    join (a.toNat / 4) x 4 = a := by
  unfold join
  refine ofNat_eq ?_
  omega

theorem join_second {b : UInt8} {x y : Nat} (hx : x % 16 = b.toNat / 16)
    (hy : y / 4 = b.toNat % 16) : join (x % 16) y 16 = b := by
  unfold join
  refine ofNat_eq ?_
  omega

theorem join_third {c : UInt8} {y : Nat} (h : y % 4 = c.toNat / 64) :
    join (y % 4) (c.toNat % 64) 64 = c := by
  unfold join
  refine ofNat_eq ?_
  omega

theorem groupBytes_eq (a b c : UInt8) :
    groupBytes (a.toNat / 4) (a.toNat % 4 * 16 + b.toNat / 16) (b.toNat % 16 * 4 + c.toNat / 64)
      (c.toNat % 64) = [a, b, c] := by
  have hb := b.toNat_lt
  have hc := c.toNat_lt
  unfold groupBytes
  rw [join_first (by omega), join_second (b := b) (by omega) (by omega), join_third (by omega)]

theorem encode_eq_nil_iff {bytes : List UInt8} : encode bytes = [] ↔ bytes = [] := by
  refine ⟨fun h => ?_, fun h => h ▸ rfl⟩
  unfold encode at h
  split at h <;> first | rfl | cases h

/-- The bytes are read group by group, wherever the first group starts. -/
theorem groups_encode (offset : Nat) (bytes : List UInt8) :
    groups offset ((encode bytes).map byte) = .ok bytes := by
  have hne : ∀ n < 64, byte (symbol n) ≠ pad := fun n hn => (symbol_spec n hn).2.2.1
  have hvalue : ∀ n < 64, ∀ k, value k (byte (symbol n)) = .ok n := by
    intro n hn k
    unfold value
    rw [(symbol_spec n hn).2.2.2]
  have hpad : byte '=' = pad := rfl
  fun_induction encode bytes generalizing offset with
  | case1 => rfl
  | case2 a =>
    have ha := a.toNat_lt
    have h1 : a.toNat / 4 < 64 := by omega
    have h2 : a.toNat % 4 * 16 < 64 := by omega
    have hfirst : join (a.toNat / 4) (a.toNat % 4 * 16) 4 = a := join_first (by omega)
    simp only [List.map_cons, List.map_nil, hpad, groups, lastGroup]
    simp [hne _ h1, hne _ h2, hvalue _ h1, hvalue _ h2, values, bind, Except.bind, pure,
      Except.pure, hfirst]
  | case3 a b =>
    have ha := a.toNat_lt
    have hb := b.toNat_lt
    have h1 : a.toNat / 4 < 64 := by omega
    have h2 : a.toNat % 4 * 16 + b.toNat / 16 < 64 := by omega
    have h3 : b.toNat % 16 * 4 < 64 := by omega
    have hfirst : join (a.toNat / 4) (a.toNat % 4 * 16 + b.toNat / 16) 4 = a :=
      join_first (by omega)
    have hsecond : join (b.toNat / 16 % 16) (b.toNat % 16 * 4) 16 = b :=
      join_second (by omega) (by omega)
    simp only [List.map_cons, List.map_nil, hpad, groups, lastGroup]
    simp [hne _ h1, hne _ h2, hne _ h3, hvalue _ h1, hvalue _ h2, hvalue _ h3, values, bind,
      Except.bind, pure, Except.pure, hfirst, hsecond]
  | case4 a b c rest ih =>
    have ha := a.toNat_lt
    have hb := b.toNat_lt
    have hc := c.toNat_lt
    have h1 : a.toNat / 4 < 64 := by omega
    have h2 : a.toNat % 4 * 16 + b.toNat / 16 < 64 := by omega
    have h3 : b.toNat % 16 * 4 + c.toNat / 64 < 64 := by omega
    have h4 : c.toNat % 64 < 64 := by omega
    rcases hrest : (encode rest).map byte with _ | ⟨e, es⟩
    · rw [List.map_eq_nil_iff, encode_eq_nil_iff] at hrest
      subst hrest
      simp only [List.map_cons, encode, List.map_nil, groups, lastGroup]
      simp [hne _ h1, hne _ h2, hne _ h3, hne _ h4, hvalue _ h1, hvalue _ h2, hvalue _ h3,
        hvalue _ h4, values, bind, Except.bind, pure, Except.pure, groupBytes_eq]
    · rw [hrest] at ih
      simp only [List.map_cons, hrest, groups, hvalue _ h1, hvalue _ h2, hvalue _ h3, hvalue _ h4,
        ih, bind, Except.bind, groupBytes_eq]
      rfl

theorem decode_encode (bytes : List UInt8) :
    decode (utf8 (squeeze (encode bytes))) = .ok bytes := by
  have hlength := length_encode_mod bytes
  rw [squeeze_encode, utf8_encode]
  unfold decode
  split
  · rw [List.length_map, hlength]
    exact groups_encode 0 bytes
  · rename_i hlast
    rw [List.getLast?_eq_none_iff, List.map_eq_nil_iff, encode_eq_nil_iff] at hlast
    rw [hlast]

end Base64

namespace Hex

theorem digit_spec : ∀ n < 16, (digit n).toNat < 128 ∧ isBlank (digit n) = false
    ∧ value? (byte (digit n)) = some n := by
  decide

theorem mem_encode {bytes : List UInt8} {c : Char} (h : c ∈ encode bytes) :
    ∃ n < 16, c = digit n := by
  obtain ⟨b, -, hc⟩ := List.mem_flatMap.1 h
  have hb := b.toNat_lt
  simp only [List.mem_cons, List.not_mem_nil, or_false] at hc
  rcases hc with rfl | rfl
  · exact ⟨_, by omega, rfl⟩
  · exact ⟨_, by omega, rfl⟩

theorem utf8_encode (bytes : List UInt8) : utf8 (encode bytes) = (encode bytes).map byte := by
  refine utf8_eq_map fun c hc => ?_
  obtain ⟨n, hn, rfl⟩ := mem_encode hc
  exact (digit_spec n hn).1

theorem length_encode (bytes : List UInt8) : (encode bytes).length = 2 * bytes.length := by
  simp [encode, List.length_flatMap, Nat.mul_comm]

theorem decode?_encode (bytes : List UInt8) : decode? ((encode bytes).map byte) = some bytes := by
  induction bytes with
  | nil => rfl
  | cons b bytes ih =>
    have hb := b.toNat_lt
    have hhigh := (digit_spec (b.toNat / 16) (by omega)).2.2
    have hlow := (digit_spec (b.toNat % 16) (by omega)).2.2
    have hbyte : UInt8.ofNat (16 * (b.toNat / 16) + b.toNat % 16) = b := ofNat_eq (by omega)
    show decode? (byte (digit (b.toNat / 16)) :: byte (digit (b.toNat % 16)) ::
      (encode bytes).map byte) = some (b :: bytes)
    simp only [decode?, hhigh, hlow, ih, bind, Option.bind, hbyte]
    rfl

end Hex

end TypedDoc.Text

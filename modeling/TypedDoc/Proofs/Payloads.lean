import TypedDoc.Binary
import TypedDoc.Proofs.ByteOrder
import TypedDoc.Proofs.Bytes
import TypedDoc.Proofs.Outcome

/-!
# The text of payloads

Base64 text is read exactly if it is what is written for some bytes: each group of four symbols is
the one that its three bytes have, and the last group has its padding and no bits to spare
(`Text.Base64.decode_eq_ok_iff`). So texts and bytes correspond to each other, but for the ASCII
blanks, which may stand anywhere in a text, in a group or in the padding as well.
-/

namespace TypedDoc

namespace Text

namespace Base64

variable {offset w x y z : ℕ} {b : UInt8}

theorem value?_eq_some_iff : value? b = some x ↔ x < 64 ∧ b = byte (symbol x) := by
  refine ⟨fun h => ?_, ?_⟩
  · have hb : ∀ k < 128, k = b.toNat → byte (Char.ofNat k) = b := fun k hk hkb => by
      rw [byte_ofNat hk, ofNat_eq hkb]
    unfold value? at h
    simp only [Bool.and_eq_true, decide_eq_true_eq, UInt8.le_iff_toNat_le, UInt8.reduceToNat,
      beq_iff_eq] at h
    unfold symbol
    split_ifs at h with h1 h2 h3 h4 h5 <;> obtain rfl := Option.some.inj h
    · rw [if_pos (by omega), hb _ (by omega) (by omega)]
      exact ⟨by omega, rfl⟩
    · rw [if_neg (by omega), if_pos (by omega), hb _ (by omega) (by omega)]
      exact ⟨by omega, rfl⟩
    · rw [if_neg (by omega), if_neg (by omega), if_pos (by omega), hb _ (by omega) (by omega)]
      exact ⟨by omega, rfl⟩
    · exact ⟨by decide, h4⟩
    · exact ⟨by decide, h5⟩
  · rintro ⟨hx, rfl⟩
    exact (symbol_spec x hx).2.2.2

theorem value_eq_ok_iff : value offset b = .ok x ↔ x < 64 ∧ b = byte (symbol x) := by
  rw [← value?_eq_some_iff]
  unfold value
  split <;> simp_all

theorem values_eq_ok {symbols : List UInt8} {numbers : List ℕ}
    (h : values offset symbols = .ok numbers) :
    (∀ n ∈ numbers, n < 64) ∧ symbols = numbers.map fun n => byte (symbol n) := by
  induction symbols generalizing offset numbers with
  | nil =>
    obtain rfl := Except.ok.inj h
    simp
  | cons b symbols ih =>
    simp only [values, bind_eq_ok_iff] at h
    obtain ⟨n, hn, ns, hns, h⟩ := h
    obtain rfl := Except.ok.inj h
    obtain ⟨hlt, rfl⟩ := value_eq_ok_iff.1 hn
    obtain ⟨hall, rfl⟩ := ih hns
    exact ⟨List.forall_mem_cons.2 ⟨hlt, hall⟩, rfl⟩

theorem toNat_join {k : ℕ} (h : x * k + y / (64 / k) < 256) :
    (join x y k).toNat = x * k + y / (64 / k) := by
  unfold join
  rw [UInt8.toNat_ofNat', Nat.mod_eq_of_lt h]

theorem encode_one (hw : w < 64) (hx : x < 64) (h : x % 16 = 0) :
    encode [join w x 4] = [symbol w, symbol x, '=', '='] := by
  have hfirst : (join w x 4).toNat = w * 4 + x / 16 := toNat_join (by omega)
  rw [encode, hfirst]
  congr <;> omega

theorem encode_two (hw : w < 64) (hx : x < 64) (hy : y < 64) (h : y % 4 = 0) :
    encode [join w x 4, join (x % 16) y 16] = [symbol w, symbol x, symbol y, '='] := by
  have hfirst : (join w x 4).toNat = w * 4 + x / 16 := toNat_join (by omega)
  have hsecond : (join (x % 16) y 16).toNat = x % 16 * 16 + y / 4 := toNat_join (by omega)
  rw [encode, hfirst, hsecond]
  congr <;> omega

theorem encode_groupBytes (hw : w < 64) (hx : x < 64) (hy : y < 64) (hz : z < 64)
    (bytes : List UInt8) : encode (groupBytes w x y z ++ bytes) =
      symbol w :: symbol x :: symbol y :: symbol z :: encode bytes := by
  have hfirst : (join w x 4).toNat = w * 4 + x / 16 := toNat_join (by omega)
  have hsecond : (join (x % 16) y 16).toNat = x % 16 * 16 + y / 4 := toNat_join (by omega)
  have hthird : (join (y % 4) z 64).toNat = y % 4 * 64 + z := by
    rw [toNat_join] <;> omega
  simp only [groupBytes, List.cons_append, List.nil_append, encode, hfirst, hsecond, hthird]
  congr <;> omega

/-- Bytes after the symbols of a last group that pass the check are padding. -/
theorem eq_padding {rest : List UInt8} {few : Bool}
    (h : ¬ (!rest.isEmpty && (few || rest.any (· != pad))) = true) :
    rest = List.replicate rest.length pad := by
  refine List.eq_replicate_iff.2 ⟨rfl, fun b hb => ?_⟩
  have hne : rest ≠ [] := List.ne_nil_of_mem hb
  simp only [Bool.and_eq_true, Bool.or_eq_true, List.any_eq_true, bne_iff_ne, not_and, not_or,
    not_exists, not_not, Bool.not_eq_true', List.isEmpty_eq_false_iff] at h
  exact (h hne).2 b hb

/-- A last group is what is written for its bytes: its padding has the right length, and no bits are
left over. -/
theorem lastGroup_eq_ok {group bytes : List UInt8} (hlength : group.length ≤ 4)
    (h : lastGroup offset group = .ok bytes) : group = (encode bytes).map byte := by
  unfold lastGroup at h
  generalize hsymbols : group.takeWhile (· != pad) = symbols at h
  generalize hrest : group.dropWhile (· != pad) = rest at h
  have hgroup : symbols ++ rest = group := by
    rw [← hsymbols, ← hrest]
    exact List.takeWhile_append_dropWhile
  simp only [bind_eq_ok_iff] at h
  obtain ⟨numbers, hnumbers, h⟩ := h
  obtain ⟨hlt, rfl⟩ := values_eq_ok hnumbers
  split at h
  · cases h
  next hcheck =>
  have hrest := eq_padding hcheck
  rw [← hgroup, List.length_append, List.length_map] at hlength h
  rw [← hgroup, hrest]
  -- two, three or four symbols; with fewer of them, the length of the group asks for the padding
  split at h
  · next w x =>
    split at h
    · cases h
    split at h
    · cases h
    next hfull hspare =>
    obtain rfl := Except.ok.inj h
    obtain ⟨hw, hx⟩ : w < 64 ∧ x < 64 := by simpa using hlt
    have hx0 : x % 16 = 0 := by simpa using hspare
    have hsum : 2 + rest.length = 4 := by simpa using hfull
    have hlen : rest.length = 2 := by omega
    rw [encode_one hw hx hx0, hlen]
    rfl
  · next w x y =>
    split at h
    · cases h
    split at h
    · cases h
    next hfull hspare =>
    obtain rfl := Except.ok.inj h
    obtain ⟨hw, hx, hy⟩ : w < 64 ∧ x < 64 ∧ y < 64 := by simpa using hlt
    have hy0 : y % 4 = 0 := by simpa using hspare
    have hsum : 3 + rest.length = 4 := by simpa using hfull
    have hlen : rest.length = 1 := by omega
    rw [encode_two hw hx hy hy0, hlen]
    rfl
  · next w x y z =>
    obtain rfl := Except.ok.inj h
    obtain ⟨hw, hx, hy, hz⟩ : w < 64 ∧ x < 64 ∧ y < 64 ∧ z < 64 := by simpa using hlt
    have hlen : rest.length = 0 := by simpa using hlength
    rw [← List.append_nil (groupBytes w x y z), encode_groupBytes hw hx hy hz, hlen]
    rfl
  · cases h

theorem groups_eq_ok {text bytes : List UInt8} (h : groups offset text = .ok bytes) :
    text = (encode bytes).map byte := by
  fun_induction groups offset text generalizing bytes with
  | case1 =>
    obtain rfl := Except.ok.inj h
    rfl
  | case2 offset a b c d e rest ih =>
    simp only [bind_eq_ok_iff, value_eq_ok_iff] at h
    obtain ⟨w, ⟨hw, rfl⟩, x, ⟨hx, rfl⟩, y, ⟨hy, rfl⟩, z, ⟨hz, rfl⟩, bytes', hrest, h⟩ := h
    obtain rfl := Except.ok.inj h
    rw [encode_groupBytes hw hx hy hz, ih hrest]
    rfl
  | case3 offset text hnil hlong =>
    refine lastGroup_eq_ok ?_ h
    rcases text with _ | ⟨a, _ | ⟨b, _ | ⟨c, _ | ⟨d, _ | ⟨e, rest⟩⟩⟩⟩⟩
    case cons.cons.cons.cons.cons => exact (hlong a b c d e rest rfl).elim
    all_goals simp

/-- What is read is what is written. -/
theorem decode_eq_ok_iff {text bytes : List UInt8} :
    decode text = .ok bytes ↔ text = (encode bytes).map byte := by
  refine ⟨fun h => ?_, ?_⟩
  · unfold decode at h
    split at h
    · split_ifs at h
      exact groups_eq_ok h
    · next hlast =>
      obtain rfl := Except.ok.inj h
      exact List.getLast?_eq_none_iff.1 hlast
  · rintro rfl
    have h := decode_encode bytes
    rwa [squeeze_encode, utf8_encode] at h

end Base64

/-- One text is another with ASCII blanks put in anywhere. -/
inductive Spaced : List Char → List Char → Prop
  | nil : Spaced [] []
  | keep (c : Char) {cs ds : List Char} : Spaced cs ds → Spaced (c :: cs) (c :: ds)
  | blank {c : Char} {cs ds : List Char} : c ∈ [' ', '\t', '\n', '\r', '\x0c'] →
    Spaced cs ds → Spaced cs (c :: ds)

theorem isAsciiBlank_iff {c : Char} :
    isAsciiBlank c = true ↔ c ∈ [' ', '\t', '\n', '\r', '\x0c'] := by
  simp only [isAsciiBlank, Bool.or_eq_true, beq_iff_eq, List.mem_cons, List.not_mem_nil, or_false]
  tauto

theorem squeeze_eq_iff_spaced {cs ds : List Char} (h : ∀ c ∈ cs, isAsciiBlank c = false) :
    squeeze ds = cs ↔ Spaced cs ds := by
  refine ⟨?_, fun hs => ?_⟩
  · rintro rfl
    clear h
    induction ds with
    | nil => exact .nil
    | cons d ds ih =>
      by_cases hd : isAsciiBlank d = true
      · have hsqueeze : squeeze (d :: ds) = squeeze ds := by simp [squeeze, hd]
        rw [hsqueeze]
        exact .blank (isAsciiBlank_iff.1 hd) ih
      · have hsqueeze : squeeze (d :: ds) = d :: squeeze ds := by simp [squeeze, hd]
        rw [hsqueeze]
        exact .keep d ih
  · induction hs with
    | nil => rfl
    | keep c _ ih =>
      rw [List.forall_mem_cons] at h
      have ih := ih h.2
      simp_all [squeeze]
    | blank hc _ ih =>
      have ih := ih h
      simp_all [squeeze, isAsciiBlank_iff.2 hc]

end Text

namespace Binary

theorem read_eq_ok_iff {text : String} {b : Binary} :
    read text = .ok b ↔ b.subtype = 0 ∧ String.ofList (Text.squeeze text.toList) = b.base64 := by
  obtain ⟨bytes, subtype⟩ := b
  have hdecode : Text.Base64.decode (Text.utf8 (Text.squeeze text.toList)) = .ok bytes ↔
      Text.squeeze text.toList = Text.Base64.encode bytes := by
    rw [Text.Base64.decode_eq_ok_iff, ← Text.Base64.utf8_encode, Text.utf8_inj]
  rw [base64, String.ofList_inj, ← hdecode]
  unfold read
  split
  · next bytes' h => simp [h, and_comm, eq_comm]
  · next fault h => simp [h]

/-- A text that is not read is reported as it stands. -/
theorem read_eq_error {text : String}
    (h : ∀ b : Binary, String.ofList (Text.squeeze text.toList) ≠ b.base64) :
    ∃ fault, read text = .error (.malformedValue "binary" text (.base64 fault)) := by
  rcases hread : read text with e | b
  · unfold read at hread
    split at hread
    · cases hread
    · next fault _ => exact ⟨fault, hread.symm⟩
  · exact absurd (read_eq_ok_iff.1 hread).2 (h b)

theorem spaced_iff {b : Binary} {text : String} :
    Text.Spaced b.base64.toList text.toList ↔
      String.ofList (Text.squeeze text.toList) = b.base64 := by
  rw [base64, String.toList_ofList, String.ofList_inj]
  exact (Text.squeeze_eq_iff_spaced fun _ hc =>
    (Text.Base64.isLetter_of_mem_encode hc).not_blank).symm

/-- Payloads and their texts correspond to each other, blanks aside. The text that is written for
some bytes is read as these bytes with blanks put in anywhere, and a text that is read is the one
that is written for what was read, once its blanks are dropped; so two texts are read as the same
bytes exactly if they differ in blanks alone. Every other text is refused, and the error has it with
its blanks. -/
theorem text_corresponds :
    (∀ (b : Binary) (text : String), Text.Spaced b.base64.toList text.toList →
        read text = .ok ⟨b.bytes, 0⟩)
      ∧ (∀ (text : String) (b : Binary), read text = .ok b →
        b.subtype = 0 ∧ String.ofList (Text.squeeze text.toList) = b.base64)
      ∧ (∀ (text text' : String) (b b' : Binary), read text = .ok b → read text' = .ok b' →
        (b.bytes = b'.bytes ↔ Text.squeeze text.toList = Text.squeeze text'.toList))
      ∧ ∀ text : String, (∀ b : Binary, String.ofList (Text.squeeze text.toList) ≠ b.base64) →
        ∃ fault, read text = .error (.malformedValue "binary" text (.base64 fault)) := by
  refine ⟨fun b text h => read_eq_ok_iff.2 ⟨rfl, spaced_iff.1 h⟩, fun text b => read_eq_ok_iff.1, ?_,
    fun text => read_eq_error⟩
  intro text text' b b' h h'
  obtain ⟨hb, htext⟩ := read_eq_ok_iff.1 h
  obtain ⟨hb', htext'⟩ := read_eq_ok_iff.1 h'
  rw [← String.ofList_inj, htext, htext']
  refine ⟨fun hbytes => by rw [base64, base64, hbytes], fun heq => ?_⟩
  have hsame : read text = .ok b' := read_eq_ok_iff.2 ⟨hb', by rw [htext, heq]⟩
  rw [h] at hsame
  exact congrArg bytes (Except.ok.inj hsame)

/-- A text with blanks in a group and in its padding, and one whose padding is missing. -/
theorem text_corresponds_hello :
    let b : Binary := ⟨[104, 101, 108, 108, 111], 0⟩
    read "aG Vs\r\nbG8\t=\n" = .ok b ∧ b.base64 = "aGVsbG8="
      ∧ Text.squeeze "aG Vs\r\nbG8\t=\n".toList = Text.squeeze "aGVsbG8=\x0c".toList
      ∧ ∃ fault, read "aGVsbG8\n" = .error (.malformedValue "binary" "aGVsbG8\n" (.base64 fault)) := by
  intro b
  obtain ⟨hspaced, hread, hsame, herror⟩ := text_corresponds
  have hblanks : read "aG Vs\r\nbG8\t=\n" = .ok b :=
    hspaced b _ (spaced_iff.2 rfl)
  have hfeed : read "aGVsbG8=\x0c" = .ok b :=
    hspaced b _ (spaced_iff.2 rfl)
  refine ⟨hblanks, (hread _ b hfeed).2.symm.trans rfl, (hsame _ _ b b hblanks hfeed).1 rfl, ?_⟩
  refine herror _ fun b hb => ?_
  have hlength := congrArg (fun s : String => s.toList.length % 4) hb
  simp only [base64, String.toList_ofList, Text.Base64.length_encode_mod] at hlength
  exact absurd hlength (by decide)

end Binary

end TypedDoc

import TypedDoc.Text.Quoted
import Mathlib.Data.Nat.Digits.Defs
import Mathlib.Data.List.Basic

/-!
# Where quoted text ends

Between quotes one character is read at a time (`Quoted.next`): one that shows by itself, or what
follows a backslash. The quote at the end is none of them. So of two texts that begin with quoted
text and are the same, what is quoted is the same, and what follows it (`quoted_append_inj`).
-/

namespace TypedDoc.Text

namespace Quoted

/-- The number that a lowercase hexadecimal digit stands for. -/
def digitValue (c : Char) : Nat := "0123456789abcdef".toList.idxOf c

/-- The number that hexadecimal digits stand for. -/
def codePoint (ds : List Char) : Nat := ds.foldl (fun n c => 16 * n + digitValue c) 0

theorem digitValue_digitChar : ∀ d < 16, digitValue (Nat.digitChar d) = d := by decide

theorem codePoint_toDigits (n : Nat) : codePoint (Nat.toDigits 16 n) = n := by
  induction n using Nat.strong_induction_on with
  | h n ih =>
    by_cases hn : n < 16
    · rw [Nat.toDigits_of_lt_base hn]
      simp [codePoint, digitValue_digitChar n hn]
    · have happend : ∀ ds c, codePoint (ds ++ [c]) = 16 * codePoint ds + digitValue c :=
        fun ds c => by simp [codePoint]
      rw [Nat.toDigits_of_base_le (by decide) (by omega), happend, ih _ (by omega),
        digitValue_digitChar _ (Nat.mod_lt n (by decide))]
      omega

theorem ne_brace_of_mem_toDigits {n : Nat} {c : Char} (h : c ∈ Nat.toDigits 16 n) : c ≠ '}' := by
  have hdigit : ∀ d < 16, Nat.digitChar d ≠ '}' := by decide
  induction n using Nat.strong_induction_on with
  | h n ih =>
    by_cases hn : n < 16
    · rw [Nat.toDigits_of_lt_base hn, List.mem_singleton] at h
      rw [h]
      exact hdigit n hn
    · rw [Nat.toDigits_of_base_le (by decide) (by omega), List.mem_append, List.mem_singleton] at h
      rcases h with h | rfl
      · exact ih _ (by omega) h
      · exact hdigit _ (Nat.mod_lt n (by decide))

/-- The character that a backslash and a letter stand for. -/
def unescape : Char → Char
  | 'n' => '\n'
  | 'r' => '\r'
  | 't' => '\t'
  | '0' => '\x00'
  | c => c

/-- The first character between quotes, and what is left; none if the text ends. -/
def next : List Char → Option (Char × List Char)
  | [] => none
  | '"' :: _ => none
  | '\\' :: 'u' :: '{' :: cs =>
    some (Char.ofNat (codePoint (cs.takeWhile (· != '}'))), (cs.dropWhile (· != '}')).tail)
  | '\\' :: c :: cs => some (unescape c, cs)
  | c :: cs => some (c, cs)

theorem next_of_ne {c : Char} (hquote : c ≠ '"') (hbackslash : c ≠ '\\') (cs : List Char) :
    next (c :: cs) = some (c, cs) := by
  unfold next
  split <;> simp_all

theorem next_codePoint (n : Nat) (cs : List Char) :
    next (['\\', 'u', '{'] ++ Nat.toDigits 16 n ++ ['}'] ++ cs) = some (Char.ofNat n, cs) := by
  have hdigits : ∀ c ∈ Nat.toDigits 16 n, (c != '}') = true := fun c hc =>
    bne_iff_ne.2 (ne_brace_of_mem_toDigits hc)
  simp only [List.append_assoc, List.cons_append, List.nil_append, next]
  rw [List.takeWhile_append_of_pos hdigits, List.dropWhile_append_of_pos hdigits,
    List.takeWhile_cons_of_neg (by decide), List.dropWhile_cons_of_neg (by decide),
    List.append_nil, codePoint_toDigits, List.tail_cons]

/-- A character is read back from what stands for it. -/
theorem next_escape (c : Char) (cs : List Char) : next (escape c ++ cs) = some (c, cs) := by
  unfold escape
  split
  · rfl
  · rfl
  · rfl
  · rfl
  · rfl
  · rfl
  · rename_i hquote hbackslash _ _ _ _
    split_ifs
    · exact next_of_ne hquote hbackslash cs
    · rw [next_codePoint, Char.ofNat_toNat]

theorem encode_append_inj {cs ds r r' : List Char}
    (h : encode cs ++ '"' :: r = encode ds ++ '"' :: r') : cs = ds ∧ r = r' := by
  have hcons : ∀ c cs s, next (encode (c :: cs) ++ s) = some (c, encode cs ++ s) := by
    intro c cs s
    rw [encode, List.flatMap_cons, List.append_assoc, next_escape]
    rfl
  induction cs generalizing ds with
  | nil =>
    cases ds with
    | nil => exact ⟨rfl, (List.cons.inj h).2⟩
    | cons d ds =>
      have hnext := congrArg next h
      rw [hcons] at hnext
      cases hnext
  | cons c cs ih =>
    have hnext := congrArg next h
    cases ds with
    | nil =>
      rw [hcons] at hnext
      cases hnext
    | cons d ds =>
      rw [hcons, hcons, Option.some.injEq, Prod.mk.injEq] at hnext
      obtain ⟨rfl, hrest⟩ := hnext
      obtain ⟨rfl, hr⟩ := ih hrest
      exact ⟨rfl, hr⟩

end Quoted

theorem toList_quoted (s : String) :
    (quoted s).toList = '"' :: Quoted.encode s.toList ++ ['"'] := String.toList_ofList

/-- Quoted text says by itself where it ends. -/
theorem quoted_append_inj {s t : String} {r r' : List Char}
    (h : (quoted s).toList ++ r = (quoted t).toList ++ r') : s = t ∧ r = r' := by
  rw [toList_quoted, toList_quoted, List.append_assoc, List.append_assoc] at h
  obtain ⟨hchars, hr⟩ := Quoted.encode_append_inj (List.cons.inj h).2
  exact ⟨String.toList_inj.1 hchars, hr⟩

end TypedDoc.Text

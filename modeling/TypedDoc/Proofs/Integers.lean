import TypedDoc.Proofs.Decoding
import TypedDoc.Proofs.Scalars

/-!
# Integers in elements

An element for an integer is decoded exactly if its text, blanks around it aside, denotes an integer
of 64 bits (`Decode.integer_element`). So its text is refused if it denotes no integer, or one out
of range.
-/

namespace TypedDoc.Decode

open Numeral.Integer

theorem value_int (limits : Limits) (depth : ℕ) (name text : Option String)
    (children : List Field) :
    value limits depth (.mk "int" name text children) = (integer "int" text).map .integer :=
  value_scalar rfl rfl

/-- An element for an integer is decoded exactly if its text denotes an integer of 64 bits, blanks
around it aside, and then to that integer; the text of an integer is decoded to it. Every other
text is refused with an error that has it with its blanks, and so is an element without text. -/
theorem integer_element (limits : Limits) (depth : ℕ) (name : Option String)
    (children : List Field) :
    (∀ (text : String) (n : Int64),
        value limits depth (.mk "int" name (some text) children) = .ok (.integer n) ↔
          Denotes (Text.trim text).toList n.toInt)
      ∧ (∀ text : String,
        (∃ v, value limits depth (.mk "int" name (some text) children) = .ok v) ↔
          ∃ m : ℤ, -2 ^ 63 ≤ m ∧ m ≤ 2 ^ 63 - 1 ∧ Denotes (Text.trim text).toList m)
      ∧ (∀ text : String,
        (¬ ∃ m : ℤ, -2 ^ 63 ≤ m ∧ m ≤ 2 ^ 63 - 1 ∧ Denotes (Text.trim text).toList m) →
          ∃ fault, value limits depth (.mk "int" name (some text) children) =
            .error (.malformedValue "int" text (.integer fault)))
      ∧ value limits depth (.mk "int" name none children) =
        .error (.malformedValue "int" "" .missingInteger)
      ∧ ∀ n : Int64,
        value limits depth (.mk "int" name (some (Value.integer n).text) children) =
          .ok (.integer n) := by
  have hread : ∀ text : String, value limits depth (.mk "int" name (some text) children) =
      ((read (Text.trim text).toList).mapError fun fault =>
        .malformedValue "int" text (.integer fault)).map .integer := by
    intro text
    rw [value_int, Text.trim, String.toList_ofList]
    rfl
  refine ⟨fun text n => ?_, fun text => ?_, fun text h => ?_, rfl, fun n => ?_⟩
  · rw [hread, map_eq_ok_iff, ← read_eq_ok_iff]
    simp [mapError_eq_ok_iff]
  · rw [hread, ← exists_read_iff]
    simp [map_eq_ok_iff, mapError_eq_ok_iff]
  · rw [← exists_read_iff] at h
    rw [hread]
    rcases hcs : read (Text.trim text).toList with fault | n
    · exact ⟨fault, rfl⟩
    · exact absurd ⟨n, hcs⟩ h
  · rw [value_int, Value.text, integer_text]
    rfl

/-- The ends of the range with zeros and blanks, and an integer past the upper one. -/
theorem integer_element_ends :
    value {} 0 (.mk "int" none (some "\u00a0-009223372036854775808\n") []) =
        .ok (.integer Int64.minValue)
      ∧ ∃ fault, value {} 0 (.mk "int" none (some "+9223372036854775808") []) =
        .error (.malformedValue "int" "+9223372036854775808" (.integer fault)) := by
  obtain ⟨hvalue, -, herror, -, -⟩ := integer_element {} 0 none []
  refine ⟨(hvalue _ _).2 ?_, herror _ ?_⟩
  · exact denotes_minus_iff.2 ⟨by decide, by decide⟩
  · rintro ⟨m, -, hhigh, hm⟩
    have hpast : Denotes (Text.trim "+9223372036854775808").toList 9223372036854775808 :=
      denotes_plus_iff.2 ⟨by decide, by decide⟩
    have := hm.unique hpast
    omega

end TypedDoc.Decode

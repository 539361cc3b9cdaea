import TypedDoc.Proofs.Decoding
import TypedDoc.Proofs.Scalars

/-!
# Moments in elements

An element for a moment is decoded by way of a floating-point number. Nothing is lost on the way
(`Decode.moment_element`): the milliseconds of every moment are a number of less than 53 bits, and
an integer past the last moment is rounded to a number past it, if not to infinity
(`Decode.round_of_denotes`), so it is refused, as far away as it may be.
-/

namespace TypedDoc

open Numeral (Binary64 Decimal)
open Numeral.Integer (Denotes IsDigits denotes_plus_iff)

namespace Timestamp

/-- The first moment there is. -/
def earliest : Timestamp := ⟨-8334601228800000, by decide, by decide⟩

/-- The last moment there is. -/
def latest : Timestamp := ⟨8210266876799999, by decide, by decide⟩

theorem text_earliest : earliest.text = "-262143-01-01T00:00:00.000" := by decide

theorem text_latest : latest.text = "+262142-12-31T23:59:59.999" := by decide

end Timestamp

namespace Decode

/-- An integer out of range is rounded to a number out of range. -/
theorem round_of_denotes {cs : List Char} {m : ℤ} (h : Denotes cs m)
    (hm : m < Timestamp.earliest.millis ∨ Timestamp.latest.millis < m) :
    ∃ x, Decimal.read cs = .ok x
      ∧ (x.isFinite = true → Timestamp.ofMillis? x.round = none) := by
  have hearliest : Timestamp.earliest.millis = -8334601228800000 := rfl
  have hlatest : Timestamp.latest.millis = 8210266876799999 := rfl
  obtain ⟨negative, hread, hneg, hpos⟩ := Decimal.read_of_denotes h
  refine ⟨_, hread, fun hfinite => ?_⟩
  have hround : ∀ b : ℕ, 0 < b → b < 1 <<< 53 → b ≤ m.natAbs →
      (b : ℤ) ≤ if negative then -(Binary64.nearest negative m.natAbs).round
        else (Binary64.nearest negative m.natAbs).round := by
    intro b hb hwidth hle
    obtain ⟨hsign, hvalue⟩ :=
      Binary64.le_value_nearest hb hwidth (by exact_mod_cast hle) hfinite
    have := Binary64.le_natAbs_round hvalue
    rwa [hsign] at this
  refine dif_neg fun hrange => ?_
  rcases hm with hm | hm
  · obtain rfl := hneg (by omega)
    have hlow := hround 8334601228800001 (by decide) (by decide) (by omega)
    rw [if_pos rfl] at hlow
    omega
  · obtain rfl := hpos (by omega)
    have hhigh := hround 8210266876800000 (by decide) (by decide) (by omega)
    rw [if_neg Bool.false_ne_true] at hhigh
    omega

/-- An element whose text denotes an integer, blanks around it aside, is decoded to the moment at
exactly that many milliseconds, if there is one; else it is refused with an error that has the text
with its blanks. The moments are those from the start of the year -262143 to the end of the year
262142. -/
theorem moment_element (limits : Limits) (depth : ℕ) (name : Option String)
    (children : List Field) :
    (∀ (text : String) (m : ℤ), Denotes (Text.trim text).toList m →
        (Timestamp.earliest.millis ≤ m → m ≤ Timestamp.latest.millis → ∃ t, t.millis = m
          ∧ value limits depth (.mk "date" name (some text) children) = .ok (.date t))
        ∧ (m < Timestamp.earliest.millis ∨ Timestamp.latest.millis < m → ∃ reason,
          value limits depth (.mk "date" name (some text) children) =
              .error (.malformedValue "date" text reason)
            ∧ (reason = .timestampNotFinite ∨ reason = .timestampOutOfRange)))
      ∧ Timestamp.earliest.text = "-262143-01-01T00:00:00.000"
      ∧ Timestamp.latest.text = "+262142-12-31T23:59:59.999" := by
  refine ⟨fun text m h => ?_, Timestamp.text_earliest, Timestamp.text_latest⟩
  rw [Text.trim, String.toList_ofList] at h
  have hvalue : value limits depth (.mk "date" name (some text) children) =
      (date "date" (some text)).map .date := value_scalar rfl rfl
  rw [hvalue]
  refine ⟨fun hlow hhigh => ?_, fun hm => ?_⟩
  · have hdate : date "date" (some text) = .ok ⟨m, hlow, hhigh⟩ := date_of_denotes "date" h
    exact ⟨⟨m, hlow, hhigh⟩, rfl, by rw [hdate]; rfl⟩
  · obtain ⟨x, hread, hnone⟩ := round_of_denotes h hm
    have hdecimal : decimal "date" text = .ok x := by
      rw [decimal, hread]
      rfl
    rw [date_some, hdecimal]
    cases hfinite : x.isFinite with
    | false => exact ⟨_, by simp [bind, Except.bind, hfinite]; rfl, .inl rfl⟩
    | true => exact ⟨_, by simp [bind, Except.bind, hfinite, hnone hfinite]; rfl, .inr rfl⟩

/-- The last moment and one millisecond more, and an integer past the range of 64 bits that is
rounded to its end. -/
theorem moment_element_ends :
    (∃ t, t.millis = 8210266876799999
        ∧ value {} 0 (.mk "date" none (some "\t+08210266876799999 ") []) = .ok (.date t))
      ∧ (∃ reason, value {} 0 (.mk "date" none (some "8210266876800000") []) =
        .error (.malformedValue "date" "8210266876800000" reason))
      ∧ ∃ reason, value {} 0 (.mk "date" none (some "9223372036854775809") []) =
        .error (.malformedValue "date" "9223372036854775809" reason) := by
  obtain ⟨helement, -, -⟩ := moment_element {} 0 none []
  refine ⟨(helement _ _ ?_).1 (by decide) (by decide), ?_, ?_⟩
  · exact denotes_plus_iff.2 ⟨by decide, by decide⟩
  · have hdigits : IsDigits "8210266876800000".toList := by decide
    have hdenotes : Denotes (Text.trim "8210266876800000").toList 8210266876800000 := .bare hdigits
    obtain ⟨reason, hreason, -⟩ := (helement _ _ hdenotes).2 (.inr (by decide))
    exact ⟨reason, hreason⟩
  · have hdigits : IsDigits "9223372036854775809".toList := by decide
    have hdenotes : Denotes (Text.trim "9223372036854775809").toList 9223372036854775809 :=
      .bare hdigits
    obtain ⟨reason, hreason, -⟩ := (helement _ _ hdenotes).2 (.inr (by decide))
    exact ⟨reason, hreason⟩

end Decode

end TypedDoc

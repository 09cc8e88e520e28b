import ArithCompiler.Proofs.Number.Reading
import ArithCompiler.Proofs.Number.Wide

set_option autoImplicit false

/-!
# Texts of doubles

The wide form reads every double back from its text, also an infinity and what is not a number. So
no two doubles have the same text, the two zeros included. A text has no blank in it, and stands on
one line.
-/

namespace ArithCompiler.Number

open Lexer (Numeral isNameChar)

theorem magnitudeText_cases (x : Float) :
    Numeral (magnitudeText standard x) ∧ ofNumeral? (magnitudeText standard x) = some x.abs ∨
      magnitudeText standard x = ['i', 'n', 'f'] ∧ x.abs = positiveInfinity ∨
        magnitudeText standard x = ['n', 'a', 'n'] ∧ x.abs = notANumber := by
  cases hx : view x with
  | notANumber =>
    refine .inr (.inr ⟨by rw [magnitudeText, hx], ?_⟩)
    apply view_inj
    rw [view_abs, hx]
    rfl
  | infinity s =>
    refine .inr (.inl ⟨by rw [magnitudeText, hx], ?_⟩)
    apply view_inj
    rw [view_abs, hx]
    rfl
  | zero s | finite s m e hm =>
    have hfinite : x.isFinite := by
      rw [isFinite_iff, hx]
      rfl
    exact .inl ⟨numeral_magnitudeText hfinite, ofNumeral?_magnitudeText hfinite⟩

theorem read_magnitudeText (x : Float) :
    magnitude? (magnitudeText standard x) = some x.abs ∧
      signed? (magnitudeText standard x) = some x.abs := by
  rcases magnitudeText_cases x with ⟨hnumeral, hread⟩ | ⟨htext, habs⟩ | ⟨htext, habs⟩
  · exact ⟨(magnitude?_of_numeral hnumeral).trans hread, (signed?_of_numeral hnumeral).trans hread⟩
  · rw [htext, habs]
    exact ⟨rfl, rfl⟩
  · rw [htext, habs]
    exact ⟨rfl, rfl⟩

theorem signed?_chars (x : Float) : signed? (chars x) = some x := by
  obtain ⟨hmagnitude, hsigned⟩ := read_magnitudeText x
  unfold chars
  split
  · rename_i hnegative
    rw [signed?, hmagnitude, Option.map_some, neg_abs_of_isNegative hnegative]
  · rename_i hpositive
    rw [hsigned, abs_of_not_isNegative (by simpa using hpositive)]

theorem isPlain_chars (x : Float) : ∀ c ∈ chars x, IsPlain c := by
  have hmagnitude : ∀ c ∈ magnitudeText standard x, IsPlain c := by
    rcases magnitudeText_cases x with ⟨hnumeral, -⟩ | ⟨htext, -⟩ | ⟨htext, -⟩
    · exact isPlain_of_numeral hnumeral
    all_goals
      rw [htext]
      simp only [List.forall_mem_cons]
      exact ⟨by decide, by decide, by decide, nofun⟩
  unfold chars
  split
  · exact List.forall_mem_cons.2 ⟨by decide, hmagnitude⟩
  · exact hmagnitude

theorem ofText?_text (x : Float) : ofText? (text x) = some x := by
  rw [text, ofText?_of_plain (isPlain_chars x), signed?_chars]

theorem text_injective : Function.Injective text := by
  intro x y h
  have hread := congrArg ofText? h
  rw [ofText?_text, ofText?_text] at hread
  exact Option.some.inj hread

theorem newline_notMem_text (x : Float) : '\n' ∉ (text x).toList := by
  intro h
  rw [toList_text] at h
  exact absurd (isPlain_chars x _ h).notBlank (by decide)

end ArithCompiler.Number

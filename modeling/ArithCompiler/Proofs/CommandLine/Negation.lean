import ArithCompiler.Proofs.CommandLine.Groups
import ArithCompiler.Proofs.Grammar.Openings

set_option autoImplicit false

/-!
# Negated expressions as arguments

An argument that begins with a minus is an expression if the character after the minus looks like one.
Of the characters that an expression may go on with there, an underscore and the blanks do not, though
a space does wherever it stands.
-/

namespace ArithCompiler

open Grammar (Opener)
open Lexer (gapCharacters isNameStart)
open Number (isDigit)

namespace Text

theorem inRanges_of_mem {ranges : List (Nat × Nat)} (low high : Char) {c : Char}
    (h : (low.toNat, high.toNat) ∈ ranges) (hc : (low ≤ c && c ≤ high) = true) :
    inRanges ranges c := by
  obtain ⟨hlow, hhigh⟩ := Bool.and_eq_true_iff.1 hc
  have hlow' : low.toNat ≤ c.toNat := of_decide_eq_true hlow
  have hhigh' : c.toNat ≤ high.toNat := of_decide_eq_true hhigh
  exact List.any_eq_true.2 ⟨_, h, by simp [hlow', hhigh']⟩

theorem isDigitLike_of_isDigit {c : Char} (h : isDigit c) : isDigitLike c :=
  inRanges_of_mem '0' '9' List.mem_cons_self h

theorem isLetter_of_isNameStart {c : Char} (h : isNameStart c) : isLetter c ∨ c = '_' := by
  rw [isNameStart, Bool.or_eq_true, Bool.or_eq_true, beq_iff_eq] at h
  rcases h with (hlower | hupper) | hunderscore
  · exact .inl (inRanges_of_mem 'a' 'z' (List.mem_cons_of_mem _ List.mem_cons_self) hlower)
  · exact .inl (inRanges_of_mem 'A' 'Z' List.mem_cons_self hupper)
  · exact .inr hunderscore

end Text

namespace Options

/-- What an expression may go on with after a minus and does not look like one. -/
def inconspicuous : List Char := ['_', '\t', '\r', '\n']

def conspicuous (c : Char) : Bool := Text.isDigitLike c || Text.isLetter c || c == '.' || c == '('

theorem conspicuous_iff {c : Char} (hc : c ∈ gapCharacters ∨ Opener c) (hminus : c ≠ '-')
    (hspace : c ≠ ' ') : conspicuous c ↔ c ∉ inconspicuous := by
  constructor
  · intro h hmem
    simp only [inconspicuous, List.mem_cons, List.not_mem_nil, or_false] at hmem
    rcases hmem with rfl | rfl | rfl | rfl
    all_goals exact absurd h (by decide +kernel)
  · intro hmem
    rcases hc with hgap | hdigit | rfl | hstart | rfl | rfl
    · exact absurd ((List.mem_cons.1 hgap).resolve_left hspace) fun h =>
        hmem (List.mem_cons_of_mem _ h)
    · simp [conspicuous, Text.isDigitLike_of_isDigit hdigit]
    · simp [conspicuous]
    · rcases Text.isLetter_of_isNameStart hstart with hletter | rfl
      · simp [conspicuous, hletter]
      · exact absurd List.mem_cons_self hmem
    · simp [conspicuous]
    · exact absurd rfl hminus

def Overlooked (arg : String) : Prop :=
  arg.toList[1]?.any inconspicuous.contains ∧ ' ' ∉ arg.toList

instance (arg : String) : Decidable (Overlooked arg) := inferInstanceAs (Decidable (_ ∧ _))

theorem looksLikeExpression_iff {arg : String} {c : Char} {cs : List Char}
    (htext : arg.toList = '-' :: c :: cs) (hc : c ∈ gapCharacters ∨ Opener c) (hminus : c ≠ '-') :
    looksLikeExpression arg ↔ ¬ Overlooked arg := by
  have hlooks : looksLikeExpression arg = (conspicuous c || arg.toList.contains ' ') := by
    rw [looksLikeExpression, htext]
    rfl
  have hoverlooked : Overlooked arg ↔ c ∈ inconspicuous ∧ ' ' ∉ arg.toList := by
    simp [Overlooked, htext]
  -- A space settles it alone; without one the character after the minus decides.
  by_cases hspace : ' ' ∈ arg.toList
  · simp [hlooks, hoverlooked, hspace]
  · have hne : c ≠ ' ' := by
      rintro rfl
      exact hspace (by simp [htext])
    simp [hlooks, hoverlooked, hspace, conspicuous_iff hc hminus hne]

/-- An argument that can be read and is no flag, with one minus in front, is taken for an expression,
    unless an underscore or a blank follows the minus and there is no space in the argument. Then it
    is refused as an unknown flag. -/
theorem parse_negated {arg : String} {e : Expr} (he : ArithCompiler.parse arg = .ok e)
    (hminus : arg.toList.head? = some '-') (hsecond : arg.toList[1]? ≠ some '-')
    (hflags : arg ∉ ["-h", "-v", "-D", "-O"]) (hlevel : ∀ c, arg.toList ≠ ['-', 'O', c]) :
    parse [arg] = if Overlooked arg then .error (.usage (.unknownFlag arg))
      else .ok { default with source := some arg } := by
  obtain ⟨cs, htext⟩ := List.head?_eq_some_iff.1 hminus
  obtain ⟨c, cs, rfl, hc⟩ := Grammar.after_minus he htext
  have hne : c ≠ '-' := by
    rintro rfl
    exact hsecond (by simp [htext])
  have hplain : arg ∉ flags := by
    have hall : ∀ flag ∈ flags, flag ∈ ["-h", "-v", "-D", "-O"] ∨ flag.toList[1]? = some '-' := by
      decide
    exact fun hmem => (hall arg hmem).elim hflags hsecond
  have hlooks := looksLikeExpression_iff htext hc hne
  by_cases hoverlooked : Overlooked arg
  · have hno : looksLikeExpression arg = false :=
      Bool.eq_false_iff.2 fun hyes => hlooks.1 hyes hoverlooked
    have hunknown : classify arg = .unknown := by
      rw [classify_plain hplain hlevel, if_pos (by simp [htext, hno])]
    rw [if_pos hoverlooked, parse, read, hunknown]
  · have hexpression : classify arg = .expression := by
      rw [classify_plain hplain hlevel, if_neg (by simp [hlooks.2 hoverlooked])]
    rw [if_neg hoverlooked]
    exact read_expression [] hexpression rfl

/-- The same expression is refused or taken, as there is a space after the minus or none. -/
theorem parse_negated_underscore :
    (∃ e, ArithCompiler.parse "-_x" = .ok e) ∧ (∃ e, ArithCompiler.parse "- _x" = .ok e) ∧
      parse ["-_x"] = .error (.usage (.unknownFlag "-_x")) ∧
      parse ["- _x"] = .ok { default with source := some "- _x" } := by
  have htight : tokenize "-_x" = .ok ([⟨.symbol, "-", 1, 1⟩, ⟨.name, "_x", 1, 2⟩] ++
      [⟨.endOfInput, "", 1, 4⟩]) := by cbv
  have hloose : tokenize "- _x" = .ok ([⟨.symbol, "-", 1, 1⟩, ⟨.name, "_x", 1, 3⟩] ++
      [⟨.endOfInput, "", 1, 5⟩]) := by cbv
  have hderives : ∀ col, Grammar.Derives [⟨.symbol, "-", 1, 1⟩, ⟨.name, "_x", 1, col⟩]
      (.expr (.binary .subtract (.number 0.0) (.name "_x"))) := fun col =>
    .expr (.sum (.product (.negation (by decide) (by simp) (.unary (.name rfl)))))
  have he := Grammar.parse_of_derives htight rfl rfl (hderives 2)
  have he' := Grammar.parse_of_derives hloose rfl rfl (hderives 3)
  have hrefused := parse_negated he rfl (by decide) (by decide) (by simp)
  have htaken := parse_negated he' rfl (by decide) (by decide) (by simp)
  rw [if_pos (by decide)] at hrefused
  rw [if_neg (by decide)] at htaken
  exact ⟨⟨_, he⟩, ⟨_, he'⟩, hrefused, htaken⟩

end Options

end ArithCompiler

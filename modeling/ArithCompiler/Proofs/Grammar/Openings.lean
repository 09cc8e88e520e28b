import ArithCompiler.Proofs.Grammar.Acceptance
import ArithCompiler.Proofs.Lexer.Embedding

set_option autoImplicit false

/-!
# How expressions begin

An expression begins with a number, a name, an opening parenthesis or a minus, and after a minus one
of these follows again. So in a text that is read, the character after a leading minus is a blank or
one that such a token begins with.
-/

namespace ArithCompiler

open Lexer (Segments Word gapCharacters isNameStart segments_of_tokens values values_cons)
open Number (isDigit)

inductive Token.Opens (t : Token) : Prop
  | number (h : t.kind = .number)
  | name (h : t.kind = .name)
  | group (h : t.isSymbol "(")
  | minus (h : t.isSymbol "-")

namespace Grammar

/-- An expression may begin with the first token, and after a minus with the second one. -/
def Begins (ts : List Token) : Prop :=
  ∃ t rest, ts = t :: rest ∧ t.Opens ∧ (t.isSymbol "-" → ∃ u us, rest = u :: us ∧ u.Opens)

theorem Begins.append {ts : List Token} (h : Begins ts) (us : List Token) : Begins (ts ++ us) := by
  obtain ⟨t, rest, rfl, ht, hminus⟩ := h
  refine ⟨t, rest ++ us, rfl, ht, fun hm => ?_⟩
  obtain ⟨u, vs, rfl, hu⟩ := hminus hm
  exact ⟨u, vs ++ us, rfl, hu⟩

theorem begins_of_not_minus {t : Token} (h : t.Opens) (hm : ¬ t.isSymbol "-") (rest : List Token) :
    Begins (t :: rest) :=
  ⟨t, rest, rfl, h, fun hminus => absurd hminus hm⟩

theorem begins_number {t : Token} (h : t.kind = .number) (rest : List Token) :
    Begins (t :: rest) :=
  begins_of_not_minus (.number h) (by simp [Token.isSymbol, h]) rest

theorem begins_name {t : Token} (h : t.kind = .name) (rest : List Token) : Begins (t :: rest) :=
  begins_of_not_minus (.name h) (by simp [Token.isSymbol, h]) rest

theorem begins_group {t : Token} (h : t.isSymbol "(") (rest : List Token) : Begins (t :: rest) :=
  begins_of_not_minus (.group h) (by simp [Token.isSymbol, (Token.isSymbol_iff.1 h).2]) rest

theorem begins_minus {minus : Token} (h : minus.isSymbol "-") {ts : List Token} (hts : Begins ts) :
    Begins (minus :: ts) := by
  obtain ⟨t, rest, rfl, ht, -⟩ := hts
  exact ⟨minus, t :: rest, rfl, .minus h, fun _ => ⟨t, rest, rfl, ht⟩⟩

/-- Only a list of arguments may be empty. -/
theorem begins_of_derives {ts : List Token} {p : Phrase} (h : Derives ts p)
    (hp : ∀ es, p ≠ .argList es) : Begins ts := by
  induction h with
  | expr _ ih | sum _ ih | product _ ih | unary _ ih | lastExpr _ ih => exact ih nofun
  | addition _ _ _ _ ih | multiplication _ _ _ _ ih | moreExprs _ _ _ ih => exact (ih nofun).append _
  | negative hminus hk => exact begins_minus hminus (begins_number hk [])
  | negation hminus _ _ ih => exact begins_minus hminus (ih nofun)
  | number hk => exact begins_number hk []
  | name hk => exact begins_name hk []
  | call hk => exact begins_name hk _
  | group hopening => exact begins_group hopening _
  | noArguments => exact absurd rfl (hp [])
  | arguments => exact absurd rfl (hp _)

/-! ## The characters -/

def Opener (c : Char) : Prop := isDigit c ∨ c = '.' ∨ isNameStart c ∨ c = '(' ∨ c = '-'

theorem opener_of_word {t : Token} (ht : t.Opens) {c : Char} {cs : List Char}
    (htext : t.text.toList = c :: cs) (hword : Word t.kind (c :: cs)) : Opener c := by
  cases ht with
  | number hk =>
    rw [hk] at hword
    cases hword with
    | number hn => exact hn.head.imp_right .inl
  | name hk =>
    rw [hk] at hword
    cases hword with
    | name hc => exact .inr (.inr (.inl hc))
  | group h =>
    rw [(Token.isSymbol_iff.1 h).2] at htext
    obtain ⟨rfl, -⟩ := List.cons.inj htext
    exact .inr (.inr (.inr (.inl rfl)))
  | minus h =>
    rw [(Token.isSymbol_iff.1 h).2] at htext
    obtain ⟨rfl, -⟩ := List.cons.inj htext
    exact .inr (.inr (.inr (.inr rfl)))

theorem eq_minus_of_word {kind : TokenKind} {cs : List Char} (h : Word kind ('-' :: cs)) :
    kind = .symbol ∧ cs = [] := by
  cases h with
  | number hn =>
    rcases hn.head with hd | hpoint
    · exact absurd hd (by decide)
    · exact absurd hpoint (by decide)
  | name hc => exact absurd hc (by decide)
  | symbol => exact ⟨rfl, rfl⟩

theorem segments_head {cs v : List Char} {kind : TokenKind} {vs : List (TokenKind × List Char)}
    (h : Segments cs ((kind, v) :: vs)) : ∃ c rest, cs = c :: rest ∧ (c ∈ gapCharacters ∨
      ∃ v' tail, v = c :: v' ∧ rest = v' ++ tail ∧ Word kind (c :: v') ∧ Segments tail vs) := by
  cases h with
  | token hw hv htail =>
    rename_i w tail
    obtain ⟨c, v', rfl⟩ := hv.exists_cons
    cases w with
    | nil => exact ⟨c, v' ++ tail, rfl, .inr ⟨v', tail, rfl, rfl, hv.word, htail⟩⟩
    | cons b w => exact ⟨b, w ++ (c :: v' ++ tail), rfl, .inl (hw b List.mem_cons_self)⟩

/-- In a text that is read, a leading minus has a blank or the first character of an expression behind
    it. -/
theorem after_minus {source : String} {e : Expr} {cs : List Char} (h : parse source = .ok e)
    (hcs : source.toList = '-' :: cs) :
    ∃ c rest, cs = c :: rest ∧ (c ∈ gapCharacters ∨ Opener c) := by
  obtain ⟨ts, mark, htokens, -, hderives⟩ := derives_of_parse h
  obtain ⟨t, rest, rfl, -, hsecond⟩ := begins_of_derives hderives nofun
  have hsegments := segments_of_tokens htokens
  rw [hcs, values_cons] at hsegments
  obtain ⟨d, ds, heq, hgap | ⟨v, tail, htext, rfl, hword, htail⟩⟩ := segments_head hsegments
  · obtain ⟨rfl, -⟩ := List.cons.inj heq
    exact absurd hgap (by decide)
  · obtain ⟨rfl, rfl⟩ := List.cons.inj heq
    -- The minus is a token of its own, so the second token begins right after it or after a gap.
    obtain ⟨hk, rfl⟩ := eq_minus_of_word hword
    have hminus : t.isSymbol "-" := Token.isSymbol_iff.2 ⟨hk, String.toList_injective htext⟩
    obtain ⟨u, us, rfl, hu⟩ := hsecond hminus
    rw [values_cons] at htail
    obtain ⟨c, cs, rfl, hgap | ⟨v, -, hshown, -, hfirst, -⟩⟩ := segments_head htail
    · exact ⟨c, cs, rfl, .inl hgap⟩
    · exact ⟨c, cs, rfl, .inr (opener_of_word hu hshown hfirst)⟩

end Grammar

end ArithCompiler

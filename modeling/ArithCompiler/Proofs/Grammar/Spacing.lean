import Mathlib.Data.List.Chain
import ArithCompiler.Proofs.Grammar.Unplaced
import ArithCompiler.Proofs.Lexer.Embedding

set_option autoImplicit false

/-!
# Blanks between tokens

The tokens of a text may be written down again with other gaps around and between them. Two of them
may touch if one is a symbol; otherwise they would run together. The new text has the same tokens but
for their places, so it is read as the same tree, or fails at the same token with the same message.
-/

namespace ArithCompiler

namespace Lexer

/-- Gaps for the tokens `ts`: one in front of all, and one behind each. It may be empty in front of
    the first token, behind the last one, and next to a symbol. -/
structure Spacing (ts : List Token) (first : List Char) (spaced : List (Token × List Char)) :
    Prop where
  tokens : spaced.map Prod.fst = ts
  first : Gap first
  gaps : ∀ p ∈ spaced, Gap p.2
  apart : spaced.IsChain fun p q => p.2 = [] → p.1.kind = .symbol ∨ q.1.kind = .symbol

def written (spaced : List (Token × List Char)) : List Char :=
  spaced.flatMap fun p => p.1.text.toList ++ p.2

def respaced (first : List Char) (spaced : List (Token × List Char)) : String :=
  String.ofList (first ++ written spaced)

theorem delimited_written {spaced : List (Token × List Char)}
    (hwords : ∀ p ∈ spaced, Word p.1.kind p.1.text.toList)
    (hsymbol : ∀ p ∈ spaced.head?, p.1.kind = .symbol) : Delimited (written spaced) := by
  cases spaced with
  | nil => exact delimited_nil
  | cons p spaced =>
    have hword := hwords p List.mem_cons_self
    rw [hsymbol p rfl] at hword
    generalize htext : p.1.text.toList = v at hword
    cases hword with
    | symbol hc =>
      rw [written, List.flatMap_cons, htext]
      exact delimited_of_symbol hc _

/-- The induction is on the tokens; a number or a name has to see the delimiter that follows. -/
theorem scans_written {spaced : List (Token × List Char)}
    (hwords : ∀ p ∈ spaced, Word p.1.kind p.1.text.toList) (hgaps : ∀ p ∈ spaced, Gap p.2)
    (hapart : spaced.IsChain fun p q => p.2 = [] → p.1.kind = .symbol ∨ q.1.kind = .symbol) :
    Scans (written spaced) fun us => values us = values (spaced.map Prod.fst) := by
  induction spaced with
  | nil => exact scans_nil rfl
  | cons p spaced ih =>
    have hword := hwords p List.mem_cons_self
    have hw : Gap p.2 := hgaps p List.mem_cons_self
    have hlater : ∀ q ∈ spaced, Word q.1.kind q.1.text.toList :=
      fun q hq => hwords q (List.mem_cons_of_mem p hq)
    have hrest : Scans (p.2 ++ written spaced) fun us => values us = values (spaced.map Prod.fst) :=
      .gap hw (ih hlater (fun q hq => hgaps q (List.mem_cons_of_mem p hq)) (List.IsChain.tail hapart))
    have htext : written (p :: spaced) = p.1.text.toList ++ (p.2 ++ written spaced) := by
      rw [written, List.flatMap_cons, List.append_assoc]
      rfl
    rw [htext]
    by_cases hsymbol : p.1.kind = .symbol
    · rw [hsymbol] at hword
      generalize hv : p.1.text.toList = v at hword
      cases hword with
      | symbol hc =>
        refine hrest.symbol hc fun t us ht hus => ?_
        obtain ⟨hkind, htext⟩ := Token.isSymbol_iff.1 ht
        rw [List.map_cons, values_cons, values_cons, hus, hkind, htext, hsymbol, hv,
          String.toList_ofList]
    · refine (scans_word hword (P := fun us => values us = values [p.1]) ?_).append hrest ?_ ?_
      · intro t hkind htext
        rw [values_cons, values_cons, hkind, htext, String.ofList_toList]
      · refine delimited_gap hw fun hempty => delimited_written hlater fun q hq => ?_
        exact (hapart.rel_head? hq hempty).resolve_left hsymbol
      · intro us vs hus hvs
        rw [values_append, hus, hvs]
        rfl

end Lexer

open Lexer (Gap Spacing respaced values)

namespace Grammar

/-- A text that is tokenized may be written with other gaps: the tokens keep their kinds and texts,
    the tree is the same, and an error is the same at the same token. -/
theorem parse_respaced {source : String} {ts : List Token} {mark : Token}
    (h : tokenize source = .ok (ts ++ [mark])) {first : List Char}
    {spaced : List (Token × List Char)} (hspaced : Spacing ts first spaced) :
    (∃ us mark', tokenize (respaced first spaced) = .ok (us ++ [mark']) ∧
        mark'.kind = .endOfInput ∧ mark'.text = "" ∧ values us = values ts) ∧
      (∀ e, parse (respaced first spaced) = .ok e ↔ parse source = .ok e) ∧
      ∀ err, parse source = .error err → ∃ index,
        FailsAt source index err.text ∧ FailsAt (respaced first spaced) index err.text := by
  obtain ⟨ts', last, heq, hkind, htext, hwords⟩ := Lexer.complete_of_tokensFrom h
  obtain ⟨rfl, hlast⟩ := List.append_inj' heq rfl
  obtain rfl := List.singleton_inj.1 hlast
  obtain ⟨rfl, hfirst, hgaps, hapart⟩ := hspaced
  have hscans : Lexer.Scans (respaced first spaced).toList
      fun us => values us = values (spaced.map Prod.fst) := by
    rw [respaced, String.toList_ofList]
    exact .gap hfirst (Lexer.scans_written
      (fun p hp => hwords p.1 (List.mem_map_of_mem hp)) hgaps hapart)
  obtain ⟨us, mark', hus, hkind', htext', htokens⟩ := hscans.tokenize
  have hsame : (us ++ [mark']).map Token.unplaced =
      (spaced.map Prod.fst ++ [mark]).map Token.unplaced := by
    refine map_unplaced_of_values ?_
    rw [Lexer.values_append, Lexer.values_append, hus, Lexer.values_cons, Lexer.values_cons, hkind,
      hkind', htext, htext']
  exact ⟨⟨us, mark', htokens, hkind', htext', hus⟩, parse_of_unplaced h htokens hsame⟩

/-- The exponent, the name that looks like one and the leading point all stay what they are. -/
theorem parse_respaced_exponents :
    ∃ index, FailsAt "1e5-e1 .5" index "unexpected number '.5'" ∧
      FailsAt "\n1e5 -e1\t.5" index "unexpected number '.5'" := by
  have htokens : tokenize "1e5-e1 .5" = .ok ([⟨.number, "1e5", 1, 1⟩, ⟨.symbol, "-", 1, 4⟩,
      ⟨.name, "e1", 1, 5⟩, ⟨.number, ".5", 1, 8⟩] ++ [⟨.endOfInput, "", 1, 10⟩]) := by cbv
  have hspaced : Spacing [⟨.number, "1e5", 1, 1⟩, ⟨.symbol, "-", 1, 4⟩, ⟨.name, "e1", 1, 5⟩,
      ⟨.number, ".5", 1, 8⟩] ['\n'] [(⟨.number, "1e5", 1, 1⟩, [' ']), (⟨.symbol, "-", 1, 4⟩, []),
      (⟨.name, "e1", 1, 5⟩, ['\t']), (⟨.number, ".5", 1, 8⟩, [])] := by
    refine ⟨rfl, ?_, ?_, ?_⟩
    · simp [Gap, Lexer.gapCharacters]
    · simp [Gap, Lexer.gapCharacters]
    · simp
  have herr : parse "1e5-e1 .5" =
      .error (.grammatical .expectedEnd ⟨.number, ".5", 1, 8⟩) := by
    rw [parse_of_tokens htokens]
    rfl
  exact (parse_respaced htokens hspaced).2.2 _ herr

end Grammar

end ArithCompiler

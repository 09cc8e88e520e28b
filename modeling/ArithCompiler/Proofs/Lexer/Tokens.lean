import ArithCompiler.Proofs.Lexer.Words

set_option autoImplicit false

/-!
# Tokens of a text

What a list of tokens looks like that was read from a text, and how the tokens of a text come from
those of its parts. A part that ends with a number or a name has to be followed by a delimiter.
-/

namespace ArithCompiler

def SourceError.IsTokenizeError : SourceError → Prop
  | lexical _ _ _ => True
  | grammatical _ _ => False

namespace Lexer

theorem not_blank_of_word {kind : TokenKind} {c : Char} {cs : List Char} (h : Word kind (c :: cs)) :
    (c == '\n') = false ∧ isBlank c = false := by
  have hclass : c ≠ '\n' ∧ c ≠ ' ' ∧ c ≠ '\t' ∧ c ≠ '\r' := by
    cases h with
    | number hn =>
      rcases hn.head with hd | rfl
      · refine ⟨?_, ?_, ?_, ?_⟩
        all_goals
          rintro rfl
          exact absurd hd (by decide)
      · decide
    | name hc =>
      refine ⟨?_, ?_, ?_, ?_⟩
      all_goals
        rintro rfl
        exact absurd hc (by decide)
    | symbol hc =>
      simp only [symbols, List.mem_cons, List.not_mem_nil, or_false] at hc
      rcases hc with rfl | rfl | rfl | rfl | rfl | rfl | rfl <;> decide
  simp [isBlank, hclass]

theorem tokensFrom_token {kind : TokenKind} {c : Char} {cs rest : List Char}
    (h : lexeme c (cs ++ rest) = .token kind (c :: cs)) (line col : Nat) :
    tokensFrom line col (c :: cs ++ rest) =
      (tokensFrom line (col + (c :: cs).length) rest).map
        (⟨kind, String.ofList (c :: cs), line, col⟩ :: ·) := by
  obtain ⟨hline, hblank⟩ := not_blank_of_word (word_of_lexeme h).1
  rw [List.cons_append, tokensFrom, if_neg (by simp [hline]), if_neg (by simp [hblank]), h]
  simp

theorem tokensFrom_word {kind : TokenKind} {c : Char} {cs rest : List Char}
    (h : Word kind (c :: cs)) (hrest : kind ≠ .symbol → Delimited rest) (line col : Nat) :
    tokensFrom line col (c :: cs ++ rest) =
      (tokensFrom line (col + (c :: cs).length) rest).map
        (⟨kind, String.ofList (c :: cs), line, col⟩ :: ·) :=
  tokensFrom_token (lexeme_of_word h hrest) line col

theorem tokensFrom_blank {c : Char} (hline : c ≠ '\n') (hc : isBlank c) (line col : Nat)
    (rest : List Char) : tokensFrom line col (c :: rest) = tokensFrom line (col + 1) rest := by
  rw [tokensFrom, if_neg (by simpa using hline), if_pos hc]

/-! ## All tokens of a text -/

def Complete (tokens : List Token) : Prop :=
  ∃ ts mark, tokens = ts ++ [mark] ∧ mark.kind = .endOfInput ∧ mark.text = "" ∧
    ∀ t ∈ ts, Word t.kind t.text.toList

theorem Complete.of_append {ts : List Token} {mark : Token} (h : Complete (ts ++ [mark])) :
    mark.kind = .endOfInput ∧ mark.text = "" ∧ ∀ t ∈ ts, Word t.kind t.text.toList := by
  obtain ⟨us, last, heq, hmark, htext, hwords⟩ := h
  obtain ⟨rfl, hlast⟩ := List.append_inj' heq rfl
  obtain rfl := List.singleton_inj.1 hlast
  exact ⟨hmark, htext, hwords⟩

theorem complete_of_tokensFrom {line col : Nat} {cs : List Char} {tokens : List Token}
    (h : tokensFrom line col cs = .ok tokens) : Complete tokens := by
  induction line, col, cs using tokensFrom.induct generalizing tokens with
  | case1 line col =>
    rw [tokensFrom] at h
    cases h
    exact ⟨[], _, rfl, rfl, rfl, by simp⟩
  | case2 line col c rest hc ih =>
    rw [tokensFrom, if_pos hc] at h
    exact ih h
  | case3 line col c rest hline hc ih =>
    rw [tokensFrom, if_neg hline, if_pos hc] at h
    exact ih h
  | case4 line col c rest hline hblank kind text hlexeme ih =>
    rw [tokensFrom, if_neg hline, if_neg hblank, hlexeme] at h
    dsimp only at h
    cases hmore : tokensFrom line (col + text.length) (rest.drop (text.length - 1)) with
    | error e =>
      rw [hmore] at h
      cases h
    | ok more =>
      rw [hmore] at h
      cases h
      obtain ⟨ts, mark, rfl, hk, ht, hts⟩ := ih hmore
      refine ⟨_ :: ts, mark, rfl, hk, ht, ?_⟩
      intro t hmem
      rcases List.mem_cons.1 hmem with rfl | hmem
      · simpa using (word_of_lexeme hlexeme).1
      · exact hts t hmem
  | case5 line col c rest hline hblank cause hlexeme =>
    rw [tokensFrom, if_neg hline, if_neg hblank, hlexeme] at h
    cases h

theorem Complete.numeral {tokens : List Token} (h : Complete tokens) :
    ∀ t ∈ tokens, t.kind = .number → Numeral t.text.toList := by
  obtain ⟨ts, mark, rfl, hmark, -, hwords⟩ := h
  intro t ht hk
  rcases List.mem_append.1 ht with ht | ht
  · have hword := hwords t ht
    rw [hk] at hword
    cases hword with
    | number hn => exact hn
  · obtain rfl := List.mem_singleton.1 ht
    exact absurd (hk.symm.trans hmark) (by decide)

theorem isTokenizeError_of_tokensFrom {line col : Nat} {cs : List Char} {e : SourceError}
    (h : tokensFrom line col cs = .error e) : e.IsTokenizeError := by
  induction line, col, cs using tokensFrom.induct generalizing e with
  | case1 line col =>
    rw [tokensFrom] at h
    cases h
  | case2 line col c rest hc ih =>
    rw [tokensFrom, if_pos hc] at h
    exact ih h
  | case3 line col c rest hline hc ih =>
    rw [tokensFrom, if_neg hline, if_pos hc] at h
    exact ih h
  | case4 line col c rest hline hblank kind text hlexeme ih =>
    rw [tokensFrom, if_neg hline, if_neg hblank, hlexeme] at h
    cases hmore : tokensFrom line (col + text.length) (rest.drop (text.length - 1)) with
    | error e' =>
      simp only [hmore] at h
      cases h
      exact ih hmore
    | ok more =>
      simp only [hmore] at h
      cases h
  | case5 line col c rest hline hblank cause hlexeme =>
    rw [tokensFrom, if_neg hline, if_neg hblank, hlexeme] at h
    cases h
    exact trivial

/-! ## Tokens of parts -/

/-- Wherever the text stands before a delimiter, it is read as tokens of which `P` holds. -/
def Scans (cs : List Char) (P : List Token → Prop) : Prop :=
  ∀ line col rest, Delimited rest → ∃ line' col' tokens, P tokens ∧
    tokensFrom line col (cs ++ rest) = (tokensFrom line' col' rest).map (tokens ++ ·)

section Parts

variable {P Q R : List Token → Prop} {a b : List Char}

theorem Scans.imp (h : Scans a P) (hPQ : ∀ ts, P ts → Q ts) : Scans a Q := by
  intro line col rest hrest
  obtain ⟨line', col', ts, hts, heq⟩ := h line col rest hrest
  exact ⟨line', col', ts, hPQ ts hts, heq⟩

theorem scans_word {kind : TokenKind} (h : Word kind a)
    (hP : ∀ t : Token, t.kind = kind → t.text = String.ofList a → P [t]) : Scans a P := by
  intro line col rest hrest
  cases a with
  | nil =>
    cases h with
    | number hn =>
      obtain ⟨m, x, hm, -, heq⟩ := hn
      exact absurd (List.append_eq_nil_iff.1 heq.symm).1 hm.ne_nil
  | cons c cs =>
    refine ⟨line, col + (c :: cs).length, [⟨kind, String.ofList (c :: cs), line, col⟩],
      hP _ rfl rfl, ?_⟩
    exact tokensFrom_word h (fun _ => hrest) line col

theorem scans_nil (hP : P []) : Scans [] P := by
  intro line col rest _
  refine ⟨line, col, [], hP, ?_⟩
  cases h : tokensFrom line col rest <;> simp [h, Except.map]

theorem Scans.append (ha : Scans a P) (hb : Scans b Q) (hd : Delimited b)
    (hR : ∀ us vs, P us → Q vs → R (us ++ vs)) : Scans (a ++ b) R := by
  intro line col rest hrest
  have hdelimited : Delimited (b ++ rest) := by
    cases b with
    | nil => exact hrest
    | cons c b => exact stops_cons (hd c rfl) _
  obtain ⟨line', col', us, hus, hfirst⟩ := ha line col (b ++ rest) hdelimited
  obtain ⟨line'', col'', vs, hvs, hsecond⟩ := hb line' col' rest hrest
  refine ⟨line'', col'', us ++ vs, hR us vs hus hvs, ?_⟩
  rw [List.append_assoc, hfirst, hsecond]
  cases tokensFrom line'' col'' rest <;> simp [Except.map]

theorem Scans.symbol {c : Char} (hc : c ∈ symbols) (hb : Scans b Q)
    (hR : ∀ (t : Token) us, t.isSymbol (String.ofList [c]) → Q us → R (t :: us)) :
    Scans (c :: b) R := by
  intro line col rest hrest
  obtain ⟨line', col', us, hus, heq⟩ := hb line (col + 1) rest hrest
  refine ⟨line', col', ⟨.symbol, String.ofList [c], line, col⟩ :: us,
    hR _ us (Token.isSymbol_iff.2 ⟨rfl, rfl⟩) hus, ?_⟩
  have hword := @tokensFrom_word .symbol c [] (b ++ rest) (.symbol hc) (by simp) line col
  simp only [List.cons_append, List.nil_append, List.length_cons, List.length_nil] at hword
  rw [List.cons_append, hword, heq]
  cases tokensFrom line' col' rest <;> simp [Except.map]

theorem Scans.blank (hb : Scans b Q) : Scans (' ' :: b) Q := by
  intro line col rest hrest
  obtain ⟨line', col', us, hus, heq⟩ := hb line (col + 1) rest hrest
  refine ⟨line', col', us, hus, ?_⟩
  rw [List.cons_append, tokensFrom_blank (by decide) (by decide), heq]

end Parts

theorem Scans.tokenize {source : String} {P : List Token → Prop} (h : Scans source.toList P) :
    ∃ ts mark, P ts ∧ mark.kind = .endOfInput ∧ mark.text = "" ∧
      ArithCompiler.tokenize source = .ok (ts ++ [mark]) := by
  obtain ⟨line, col, ts, hts, heq⟩ := h 1 1 [] delimited_nil
  refine ⟨ts, ⟨.endOfInput, "", line, col⟩, hts, rfl, rfl, ?_⟩
  rw [List.append_nil] at heq
  rw [ArithCompiler.tokenize, heq, tokensFrom]
  rfl

end Lexer

end ArithCompiler

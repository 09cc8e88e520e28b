import Mathlib.Data.List.Basic
import ArithCompiler.Proofs.Lexer.Longest
import ArithCompiler.Proofs.Lexer.Tokens

set_option autoImplicit false

/-!
# The segmentation of a text

A text is cut from left to right into gaps and tokens, each token as long as it can be. The lexer
finds this segmentation where there is one; otherwise it names the first place at which no token can
be cut off.
-/

namespace ArithCompiler.Lexer

def gapCharacters : List Char := [' ', '\t', '\r', '\n']

def Gap (w : List Char) : Prop := ∀ c ∈ w, c ∈ gapCharacters

inductive Segments : List Char → List (TokenKind × List Char) → Prop
  | done {w : List Char} : Gap w → Segments w []
  | token {w v rest : List Char} {kind : TokenKind} {vs : List (TokenKind × List Char)} :
      Gap w → Admissible kind v rest → Segments rest vs →
      Segments (w ++ (v ++ rest)) ((kind, v) :: vs)

/-- After some tokens and a gap the text goes on with `place`, and no token can be cut off there. -/
inductive SticksAt (place : List Char) : List Char → Prop
  | here {w : List Char} : Gap w → (∀ c ∈ place.head?, c ∉ gapCharacters) → place ≠ [] →
      (∀ kind v rest, place = v ++ rest → ¬ Admissible kind v rest) → SticksAt place (w ++ place)
  | later {w v rest : List Char} {kind : TokenKind} : Gap w → Admissible kind v rest →
      SticksAt place rest → SticksAt place (w ++ (v ++ rest))

theorem mem_gapCharacters_iff {c : Char} :
    c ∈ gapCharacters ↔ (c == '\n') = true ∨ isBlank c = true := by
  simp only [gapCharacters, List.mem_cons, List.not_mem_nil, or_false, isBlank, Bool.or_eq_true,
    beq_iff_eq]
  grind

theorem tokensFrom_gap {w : List Char} (h : Gap w) (line col : Nat) (rest : List Char) :
    ∃ line' col', tokensFrom line col (w ++ rest) = tokensFrom line' col' rest := by
  induction w generalizing line col with
  | nil => exact ⟨line, col, rfl⟩
  | cons c w ih =>
    have hw : Gap w := fun d hd => h d (List.mem_cons_of_mem c hd)
    rw [List.cons_append, tokensFrom]
    split
    · exact ih hw _ _
    · rename_i hline
      rcases mem_gapCharacters_iff.1 (h c List.mem_cons_self) with hc | hc
      · exact absurd hc hline
      · rw [if_pos hc]
        exact ih hw _ _

theorem tokensFrom_admissible {kind : TokenKind} {v rest : List Char}
    (h : Admissible kind v rest) (line col : Nat) :
    tokensFrom line col (v ++ rest) =
      (tokensFrom line (col + v.length) rest).map (⟨kind, String.ofList v, line, col⟩ :: ·) := by
  obtain ⟨c, cs, rfl⟩ := h.exists_cons
  exact tokensFrom_token (lexeme_of_admissible h) line col

def values (ts : List Token) : List (TokenKind × List Char) :=
  ts.map fun t => (t.kind, t.text.toList)

theorem values_cons (t : Token) (ts : List Token) :
    values (t :: ts) = (t.kind, t.text.toList) :: values ts := rfl

theorem values_append (ts us : List Token) : values (ts ++ us) = values ts ++ values us :=
  List.map_append

theorem tokensFrom_of_segments {cs : List Char} {vs : List (TokenKind × List Char)}
    (h : Segments cs vs) (line col : Nat) : ∃ ts mark,
      tokensFrom line col cs = .ok (ts ++ [mark]) ∧ mark.kind = .endOfInput ∧ mark.text = "" ∧
        values ts = vs := by
  induction h generalizing line col with
  | @done w hw =>
    obtain ⟨line', col', heq⟩ := tokensFrom_gap hw line col []
    rw [List.append_nil] at heq
    exact ⟨[], ⟨.endOfInput, "", line', col'⟩, by rw [heq, tokensFrom]; rfl, rfl, rfl, rfl⟩
  | @token w v rest kind vs hw hv _ ih =>
    obtain ⟨line', col', heq⟩ := tokensFrom_gap hw line col (v ++ rest)
    obtain ⟨ts, mark, hts, hkind, htext, rfl⟩ := ih line' (col' + v.length)
    refine ⟨⟨kind, String.ofList v, line', col'⟩ :: ts, mark, ?_, hkind, htext, ?_⟩
    · rw [heq, tokensFrom_admissible hv, hts]
      rfl
    · simp [values]

theorem tokensFrom_of_sticksAt {c : Char} {rest cs : List Char} (h : SticksAt (c :: rest) cs)
    (line col : Nat) : ∃ cause line' col',
      tokensFrom line col cs = .error (.lexical cause line' col') ∧
        lexeme c rest = .unreadable cause := by
  induction h generalizing line col with
  | @here w hw hplace _ hnone =>
    obtain ⟨line', col', heq⟩ := tokensFrom_gap hw line col (c :: rest)
    obtain ⟨cause, hlexeme⟩ := lexeme_of_stuck hnone
    refine ⟨cause, line', col', ?_, hlexeme⟩
    obtain ⟨hline, hblank⟩ := not_or.1 (mt mem_gapCharacters_iff.2 (hplace c rfl))
    rw [heq, tokensFrom, if_neg hline, if_neg hblank, hlexeme]
  | @later w v more kind hw hv _ ih =>
    obtain ⟨line', col', heq⟩ := tokensFrom_gap hw line col (v ++ more)
    obtain ⟨cause, line'', col'', herr, hlexeme⟩ := ih line' (col' + v.length)
    refine ⟨cause, line'', col'', ?_, hlexeme⟩
    rw [heq, tokensFrom_admissible hv, herr]
    rfl

/-- A gap as long as it can be stands before every text. -/
theorem exists_gap (cs : List Char) :
    ∃ w place, cs = w ++ place ∧ Gap w ∧ ∀ c ∈ place.head?, c ∉ gapCharacters := by
  refine ⟨_, _, List.takeWhile_append_dropWhile.symm, ?_,
    fun c hc => of_decide_eq_false (stops_dropWhile (decide <| · ∈ gapCharacters) cs c hc)⟩
  exact fun c hc => of_decide_eq_true (of_mem_takeWhile c hc)

/-- Every text comes to its end or to a place where it sticks. -/
theorem segments_or_sticksAt (cs : List Char) :
    (∃ vs, Segments cs vs) ∨ ∃ c rest, SticksAt (c :: rest) cs := by
  induction hn : cs.length using Nat.strongRecOn generalizing cs with
  | _ n ih =>
    obtain ⟨w, place, rfl, hw, hplace⟩ := exists_gap cs
    cases place with
    | nil => exact .inl ⟨[], by simpa using Segments.done hw⟩
    | cons c rest =>
      cases hlexeme : lexeme c rest with
      | unreadable cause =>
        refine .inr ⟨c, rest, .here hw hplace (by simp) fun kind v tail heq hv => ?_⟩
        obtain ⟨d, v, rfl⟩ := hv.exists_cons
        obtain ⟨rfl, rfl⟩ : c = d ∧ rest = v ++ tail := List.cons.inj heq
        rw [lexeme_of_admissible hv] at hlexeme
        cases hlexeme
      | token kind v =>
        obtain ⟨tail, heq, hv⟩ := admissible_of_lexeme hlexeme
        have hless : tail.length < n := by
          obtain ⟨d, v, rfl⟩ := hv.exists_cons
          rw [← hn, heq]
          simp only [List.length_append, List.length_cons]
          omega
        rw [heq]
        rcases ih tail.length hless tail rfl with ⟨vs, hvs⟩ | ⟨d, more, hstuck⟩
        · exact .inl ⟨_, .token hw hv hvs⟩
        · exact .inr ⟨d, more, .later hw hv hstuck⟩

def Complaint (c : Char) (rest : List Char) (text : String) : Prop :=
  DanglingExponent (c :: rest) ∧ text = "invalid float exponent" ∨
    ¬ DanglingExponent (c :: rest) ∧
      text = "unexpected character: " ++ Text.quoted (String.singleton c)

theorem complaint_of_lexeme {c : Char} {rest : List Char} {cause : LexicalCause}
    (h : lexeme c rest = .unreadable cause) (text : String) :
    Complaint c rest text ↔ text = cause.text := by
  rcases cause_of_lexeme h with rfl | rfl
  · have hdangling := lexeme_invalidExponent_iff.1 h
    constructor
    · rintro (⟨-, htext⟩ | ⟨hnot, -⟩)
      · exact htext
      · exact absurd hdangling hnot
    · exact fun htext => .inl ⟨hdangling, htext⟩
  · have hnot : ¬ DanglingExponent (c :: rest) := by
      intro hdangling
      rw [lexeme_invalidExponent_iff.2 hdangling] at h
      cases h
    constructor
    · rintro (⟨hdangling, -⟩ | ⟨-, htext⟩)
      · exact absurd hdangling hnot
      · exact htext
    · exact fun htext => .inr ⟨hnot, htext⟩

/-- The lexer computes the segmentation into longest tokens. Where there is none it complains about
    the first place that begins with no token. -/
theorem tokenize_iff_segments (source : String) :
    (∀ vs, (∃ ts mark, tokenize source = .ok (ts ++ [mark]) ∧ mark.kind = .endOfInput ∧
        mark.text = "" ∧ values ts = vs) ↔ Segments source.toList vs) ∧
      (∀ err, tokenize source = .error err → err.IsTokenizeError) ∧
      ∀ text, (∃ err, tokenize source = .error err ∧ err.text = text) ↔
        ∃ c rest, SticksAt (c :: rest) source.toList ∧ Complaint c rest text := by
  have herror : ∀ {c rest}, SticksAt (c :: rest) source.toList → ∃ err,
      tokenize source = .error err ∧ ∀ text, Complaint c rest text ↔ text = err.text := by
    intro c rest h
    obtain ⟨cause, line, col, herr, hlexeme⟩ := tokensFrom_of_sticksAt h 1 1
    exact ⟨_, herr, complaint_of_lexeme hlexeme⟩
  refine ⟨fun vs => ⟨?_, fun h => tokensFrom_of_segments h 1 1⟩,
    fun err => isTokenizeError_of_tokensFrom, fun text => ⟨?_, ?_⟩⟩
  · rintro ⟨ts, mark, hts, -, -, rfl⟩
    rcases segments_or_sticksAt source.toList with ⟨vs, hvs⟩ | ⟨c, rest, hstuck⟩
    · obtain ⟨us, mark', hus, -, -, rfl⟩ := tokensFrom_of_segments hvs 1 1
      obtain ⟨rfl, -⟩ := List.append_inj' (Except.ok.inj (hts.symm.trans hus)) rfl
      exact hvs
    · obtain ⟨err, herr, -⟩ := herror hstuck
      rw [hts] at herr
      cases herr
  · rintro ⟨err, herr, rfl⟩
    rcases segments_or_sticksAt source.toList with ⟨vs, hvs⟩ | ⟨c, rest, hstuck⟩
    · obtain ⟨us, mark, hus, -, -, -⟩ := tokensFrom_of_segments hvs 1 1
      cases herr.symm.trans hus
    · obtain ⟨err', herr', hcomplaint⟩ := herror hstuck
      obtain rfl := Except.error.inj (herr.symm.trans herr')
      exact ⟨c, rest, hstuck, (hcomplaint _).2 rfl⟩
  · rintro ⟨c, rest, hstuck, hcomplaint⟩
    obtain ⟨err, herr, htext⟩ := herror hstuck
    exact ⟨err, herr, ((htext text).1 hcomplaint).symm⟩

/-- A number ends where a name begins, and an exponent needs digits after its sign. -/
theorem tokenize_iff_segments_exponents :
    Segments "2pi 1.e5".toList
        [(.number, "2".toList), (.name, "pi".toList), (.number, "1.e5".toList)] ∧
      ∃ c rest, SticksAt (c :: rest) "x 1e+".toList ∧ Complaint c rest "invalid float exponent" := by
  have hnumbers : tokenize "2pi 1.e5" = .ok ([⟨.number, "2", 1, 1⟩, ⟨.name, "pi", 1, 2⟩,
      ⟨.number, "1.e5", 1, 5⟩] ++ [⟨.endOfInput, "", 1, 9⟩]) := by cbv
  have hdangling : tokenize "x 1e+" = .error (.lexical .invalidExponent 1 3) := by cbv
  exact ⟨((tokenize_iff_segments "2pi 1.e5").1 _).1 ⟨_, _, hnumbers, rfl, rfl, rfl⟩,
    ((tokenize_iff_segments "x 1e+").2.2 _).1 ⟨_, hdangling, rfl⟩⟩

end ArithCompiler.Lexer

import ArithCompiler.Proofs.Lexer.Segmentation

set_option autoImplicit false

/-!
# Places of tokens

The lexer counts lines and columns while it goes through a text. What it says of a token, of the end
and of a character where it sticks is the place that one finds by counting from the beginning of the
text: line feeds for the line, characters behind the last line feed for the column.
-/

namespace ArithCompiler

namespace Lexer

def lineAfter (before : List Char) : Nat := before.count '\n' + 1

def colAfter (before : List Char) : Nat := (before.reverse.takeWhile (· != '\n')).length + 1

theorem lineAfter_lineFeed (before : List Char) :
    lineAfter (before ++ ['\n']) = lineAfter before + 1 := by
  simp [lineAfter]

theorem colAfter_lineFeed (before : List Char) : colAfter (before ++ ['\n']) = 1 := by
  simp [colAfter]

theorem lineAfter_append {before more : List Char} (h : '\n' ∉ more) :
    lineAfter (before ++ more) = lineAfter before := by
  simp [lineAfter, List.count_eq_zero_of_not_mem h]

theorem colAfter_append {before more : List Char} (h : '\n' ∉ more) :
    colAfter (before ++ more) = colAfter before + more.length := by
  have hmore : ∀ c ∈ more.reverse, (c != '\n') = true := by
    intro c hc
    have hne : c ≠ '\n' := fun heq => h (heq ▸ List.mem_reverse.1 hc)
    simpa using hne
  rw [colAfter, List.reverse_append, List.takeWhile_append_of_pos hmore, colAfter]
  simp only [List.length_append, List.length_reverse]
  omega

def Earlier (line col line' col' : Nat) : Prop := line < line' ∨ line = line' ∧ col < col'

theorem earlier_append (before : List Char) {more : List Char} (h : more ≠ []) :
    Earlier (lineAfter before) (colAfter before) (lineAfter (before ++ more))
      (colAfter (before ++ more)) := by
  by_cases hline : '\n' ∈ more
  · have hcount := List.count_pos_iff.2 hline
    refine .inl ?_
    simp only [lineAfter, List.count_append]
    omega
  · have hlength := List.length_pos_iff.2 h
    refine .inr ⟨(lineAfter_append hline).symm, ?_⟩
    rw [colAfter_append hline]
    omega

/-! ## Reading on from a place -/

theorem Word.lineFeed_not_mem {kind : TokenKind} {v : List Char} (h : Word kind v) : '\n' ∉ v := by
  intro hmem
  rcases h.character _ hmem with hc | hc
  · exact absurd hc (by decide)
  · exact absurd hc (by decide)

theorem tokensFrom_gap_after {w : List Char} (h : Gap w) (before rest : List Char) :
    tokensFrom (lineAfter before) (colAfter before) (w ++ rest) =
      tokensFrom (lineAfter (before ++ w)) (colAfter (before ++ w)) rest := by
  induction w generalizing before with
  | nil => simp
  | cons c w ih =>
    have hw : Gap w := fun d hd => h d (List.mem_cons_of_mem c hd)
    have hmore := ih hw (before ++ [c])
    rw [List.append_assoc, List.singleton_append] at hmore
    rw [← hmore, List.cons_append]
    by_cases hline : c = '\n'
    · subst hline
      rw [tokensFrom, if_pos (by decide), lineAfter_lineFeed, colAfter_lineFeed]
    · have hblank : isBlank c := by
        rcases mem_gapCharacters_iff.1 (h c List.mem_cons_self) with hc | hc
        · exact absurd (by simpa using hc) hline
        · exact hc
      have hnone : '\n' ∉ [c] := by simpa using Ne.symm hline
      rw [tokensFrom_blank hline hblank, lineAfter_append hnone, colAfter_append hnone]
      rfl

theorem tokensFrom_admissible_after {kind : TokenKind} {v rest : List Char}
    (h : Admissible kind v rest) (before : List Char) :
    tokensFrom (lineAfter before) (colAfter before) (v ++ rest) =
      (tokensFrom (lineAfter (before ++ v)) (colAfter (before ++ v)) rest).map
        (⟨kind, String.ofList v, lineAfter before, colAfter before⟩ :: ·) := by
  have hline := h.word.lineFeed_not_mem
  rw [tokensFrom_admissible h, lineAfter_append hline, colAfter_append hline]

/-! ## Where a token stands -/

structure Stands (start cs : List Char) (front : List Token) (t : Token)
    (before after : List Char) : Prop where
  split : cs = before ++ (t.text.toList ++ after)
  front : Segments before (values front)
  line : t.line = lineAfter (start ++ before)
  col : t.col = colAfter (start ++ before)

def Placed (start cs : List Char) (tokens : List Token) : Prop :=
  ∀ front t back, tokens = front ++ t :: back → ∃ before after,
    Stands start cs front t before after ∧ (t.kind = .endOfInput ↔ back = []) ∧
      (back = [] → t.text = "" ∧ after = [])

def Increasing (tokens : List Token) : Prop :=
  tokens.Pairwise fun t u => Earlier t.line t.col u.line u.col

theorem placed_end {start w : List Char} (h : Gap w) :
    Placed start w [⟨.endOfInput, "", lineAfter (start ++ w), colAfter (start ++ w)⟩] := by
  intro front t back heq
  obtain ⟨rfl, rfl, rfl⟩ : front = [] ∧ t = _ ∧ back = [] := by
    cases front with
    | nil => simpa [eq_comm] using heq
    | cons u front => simp at heq
  exact ⟨w, [], ⟨by simp, .done h, rfl, rfl⟩, by simp, by simp⟩

theorem Placed.token {start w v rest : List Char} {kind : TokenKind} {tokens : List Token}
    (hw : Gap w) (hv : Admissible kind v rest) (h : Placed (start ++ w ++ v) rest tokens)
    (hne : tokens ≠ []) :
    Placed start (w ++ (v ++ rest))
      (⟨kind, String.ofList v, lineAfter (start ++ w), colAfter (start ++ w)⟩ :: tokens) := by
  intro front t back heq
  cases front with
  | nil =>
    obtain ⟨rfl, rfl⟩ := List.cons.inj heq
    refine ⟨w, rest, ⟨by simp, .done hw, rfl, rfl⟩, ?_, fun hnil => absurd hnil hne⟩
    have hkind : kind ≠ .endOfInput := by
      rintro rfl
      cases hv
    simp [hkind, hne]
  | cons u front =>
    obtain ⟨rfl, htokens⟩ := List.cons.inj heq
    obtain ⟨before, after, ⟨rfl, hfront, hline, hcol⟩, hend⟩ := h front t back htokens
    refine ⟨w ++ (v ++ before), after, ⟨by simp, ?_, ?_, ?_⟩, hend⟩
    · have hsegments := Segments.token hw hv.of_append hfront
      simpa [values] using hsegments
    · rw [hline]
      simp
    · rw [hcol]
      simp

/-- By induction on the segmentation; `start` is what has been read of the text. -/
theorem tokensFrom_placed {cs : List Char} {vs : List (TokenKind × List Char)}
    (h : Segments cs vs) (start : List Char) : ∃ tokens,
      tokensFrom (lineAfter start) (colAfter start) cs = .ok tokens ∧ Placed start cs tokens ∧
        Increasing tokens ∧ tokens ≠ [] := by
  induction h generalizing start with
  | @done w hw =>
    refine ⟨_, ?_, placed_end hw, List.pairwise_singleton _ _, by simp⟩
    have hgap := tokensFrom_gap_after hw start []
    rwa [List.append_nil, tokensFrom] at hgap
  | @token w v rest kind vs hw hv _ ih =>
    obtain ⟨tokens, htokens, hplaced, hincreasing, hne⟩ := ih (start ++ w ++ v)
    refine ⟨_, ?_, hplaced.token hw hv hne, List.pairwise_cons.2 ⟨?_, hincreasing⟩, by simp⟩
    · rw [tokensFrom_gap_after hw, tokensFrom_admissible_after hv, htokens]
      rfl
    · intro t ht
      obtain ⟨front, back, hsplit⟩ := List.append_of_mem ht
      obtain ⟨before, after, hstands, -⟩ := hplaced front t back hsplit
      have hmore : v ++ before ≠ [] := by
        obtain ⟨c, cs, rfl⟩ := hv.exists_cons
        simp
      rw [hstands.line, hstands.col, List.append_assoc _ v before]
      exact earlier_append (start ++ w) hmore

theorem tokensFrom_stuck_after {c : Char} {rest cs : List Char} (h : SticksAt (c :: rest) cs)
    (start : List Char) : ∃ cause before, cs = before ++ c :: rest ∧
      lexeme c rest = .unreadable cause ∧
      tokensFrom (lineAfter start) (colAfter start) cs =
        .error (.lexical cause (lineAfter (start ++ before)) (colAfter (start ++ before))) := by
  induction h generalizing start with
  | @here w hw hplace _ hnone =>
    obtain ⟨cause, hlexeme⟩ := lexeme_of_stuck hnone
    obtain ⟨hline, hblank⟩ := not_or.1 (mt mem_gapCharacters_iff.2 (hplace c rfl))
    refine ⟨cause, w, rfl, hlexeme, ?_⟩
    rw [tokensFrom_gap_after hw, tokensFrom, if_neg hline, if_neg hblank, hlexeme]
  | @later w v more kind hw hv _ ih =>
    obtain ⟨cause, before, rfl, hlexeme, herr⟩ := ih (start ++ w ++ v)
    refine ⟨cause, w ++ (v ++ before), by simp, hlexeme, ?_⟩
    rw [tokensFrom_gap_after hw, tokensFrom_admissible_after hv, herr]
    simp [Except.map]

/-- Every token of a text stands at its place: its line is one more than the number of line feeds
    before it, its column one more than the number of characters behind the last of these. So does
    the mark of the end. The places increase, and an error names the place of the character that
    begins no token. -/
theorem tokenize_places (source : String) :
    (∀ tokens, tokenize source = .ok tokens →
      Placed [] source.toList tokens ∧ Increasing tokens ∧ tokens ≠ []) ∧
    ∀ err, tokenize source = .error err → ∃ before c rest,
      source.toList = before ++ c :: rest ∧ SticksAt (c :: rest) source.toList ∧
      Complaint c rest err.text ∧ err.line = lineAfter before ∧ err.col = colAfter before := by
  have hstart : tokenize source = tokensFrom (lineAfter []) (colAfter []) source.toList := rfl
  rcases segments_or_sticksAt source.toList with ⟨vs, hvs⟩ | ⟨c, rest, hstuck⟩
  · obtain ⟨tokens, htokens, hplaced⟩ := tokensFrom_placed hvs []
    rw [hstart, htokens]
    exact ⟨fun _ h => Except.ok.inj h ▸ hplaced, nofun⟩
  · obtain ⟨cause, before, hsplit, hlexeme, herr⟩ := tokensFrom_stuck_after hstuck []
    rw [hstart, herr]
    refine ⟨nofun, fun err h => ?_⟩
    obtain rfl := Except.error.inj h
    exact ⟨before, c, rest, hsplit, hstuck, (complaint_of_lexeme hlexeme _).2 rfl, rfl, rfl⟩

/-- A token behind a line feed, and a number with a bad exponent on a line that begins with a
    blank. -/
theorem tokenize_places_second_line :
    (∃ before after, Stands [] "1 +\n  foo".toList
      [⟨.number, "1", 1, 1⟩, ⟨.symbol, "+", 1, 3⟩] ⟨.name, "foo", 2, 3⟩ before after) ∧
    ∃ before c rest, "x\r\n 1e+".toList = before ++ c :: rest ∧
      Complaint c rest "invalid float exponent" ∧ 2 = lineAfter before ∧ 2 = colAfter before := by
  have htokens : tokenize "1 +\n  foo" = .ok [⟨.number, "1", 1, 1⟩, ⟨.symbol, "+", 1, 3⟩,
      ⟨.name, "foo", 2, 3⟩, ⟨.endOfInput, "", 2, 6⟩] := by cbv
  have herr : tokenize "x\r\n 1e+" = .error (.lexical .invalidExponent 2 2) := by cbv
  constructor
  · obtain ⟨hplaced, -⟩ := (tokenize_places "1 +\n  foo").1 _ htokens
    obtain ⟨before, after, hstands, -⟩ :=
      hplaced [⟨.number, "1", 1, 1⟩, ⟨.symbol, "+", 1, 3⟩] ⟨.name, "foo", 2, 3⟩ _ rfl
    exact ⟨before, after, hstands⟩
  · obtain ⟨before, c, rest, hsplit, -, hcomplaint, hline, hcol⟩ :=
      (tokenize_places "x\r\n 1e+").2 _ herr
    exact ⟨before, c, rest, hsplit, hcomplaint, hline, hcol⟩

end Lexer

end ArithCompiler

import ArithCompiler.Proofs.Grammar.Acceptance
import ArithCompiler.Proofs.Grammar.Lookahead

set_option autoImplicit false

/-!
# The place of an error

A production that is stuck has read the beginning of something that it would have accepted. What it
has read so far can be completed: the open parentheses and calls are closed, and a name stands where
an operand is missing. At the token where it is stuck no list can go on, since the production gets
stuck there whatever follows. So the token that an error names is the first one that does not fit.
-/

namespace ArithCompiler.Grammar

def Words (ts : List Token) : Prop := ∀ t ∈ ts, Lexer.Word t.kind t.text.toList

theorem Words.append {ts us : List Token} (hts : Words ts) (hus : Words us) : Words (ts ++ us) := by
  intro t ht
  rcases List.mem_append.1 ht with ht | ht
  · exact hts t ht
  · exact hus t ht

theorem Words.of_append {ts us : List Token} (h : Words (ts ++ us)) : Words ts ∧ Words us :=
  List.forall_mem_append.1 h

theorem Words.tail {t : Token} {ts : List Token} (h : Words (t :: ts)) : Words ts :=
  fun u hu => h u (List.mem_cons_of_mem t hu)

/-! ## Tokens that complete a text -/

def openingToken : Token := ⟨.symbol, "(", 0, 0⟩

def closingToken : Token := ⟨.symbol, ")", 0, 0⟩

def operandToken : Token := ⟨.name, "x", 0, 0⟩

theorem closingToken_isSymbol : closingToken.isSymbol ")" := by decide

theorem words_opening : Words [openingToken] := by
  intro t ht
  obtain rfl := List.mem_singleton.1 ht
  exact .symbol (by decide)

theorem words_closing : Words [closingToken] := by
  intro t ht
  obtain rfl := List.mem_singleton.1 ht
  exact .symbol (by decide)

theorem words_operand : Words [operandToken] := by
  intro t ht
  obtain rfl := List.mem_singleton.1 ht
  exact .name (by decide) (by simp)

/-- From `ts` a production has come to `rest`, and words in its place would make what was used one
    of the phrases. -/
def Completes {α : Type} (phrase : α → Phrase) (ts rest : List Token) : Prop :=
  ∃ used, ts = used ++ rest ∧ ∃ more a, Words more ∧ Derives (used ++ more) (phrase a)

def Completable {α : Type} (p : Production α) (phrase : α → Phrase) : Prop :=
  ∀ ts cause rest, p ts = .stuck cause rest → cause.IsReport → Completes phrase ts rest

theorem expect_eq_stuck {symbol : String} {ts rest : List Token} {cause : GrammarCause}
    (h : expect symbol ts = .stuck cause rest) : rest = ts := by
  unfold expect at h
  split at h
  · cases h
  · cases h
    rfl

theorem literal_stuck {finish : Float → Float} {ts rest : List Token} {cause : GrammarCause}
    (h : literal finish ts = .stuck cause rest) : ¬ cause.IsReport := by
  unfold literal at h
  split at h
  · cases h
  · cases h
    exact fun hc => hc

theorem completes_operand {phrase : Expr → Phrase} (ts : List Token)
    (h : ∀ {us : List Token} {e : Expr}, Derives us (.primary e) → Derives us (phrase e)) :
    Completes phrase ts ts :=
  ⟨[], rfl, [operandToken], _, words_operand, h (.name rfl)⟩

theorem atom_completable : Completable atom .primary := by
  intro ts cause rest h hc
  unfold atom at h
  split at h
  · exact absurd hc (literal_stuck h)
  · cases h
  · cases h
    exact completes_operand ts id

/-- As for `chainFrom_sound`: `front` stands for what has been read so far. -/
theorem chainFrom_completable {operator? : Token → Option Operator} {operand : Production Expr}
    {left right : Expr → Phrase} (hsound : Sound operand right)
    (hright : Completable operand right)
    (hop : ∀ {t op}, operator? t = some op → t.isSymbol op.symbol)
    (hstep : ∀ {ts us t op l r}, Derives ts (left l) → operator? t = some op →
      Derives us (right r) → Derives (ts ++ t :: us) (left (.binary op l r)))
    {cause : GrammarCause} (hc : cause.IsReport) (n : Nat) (l : Expr) (front ts rest : List Token)
    (hfront : Derives front (left l)) (h : chainFrom operator? operand n l ts = .stuck cause rest) :
    Completes left (front ++ ts) rest := by
  induction n generalizing l front ts with
  | zero =>
    cases h
    cases hc
  | succ n ih =>
    rw [chainFrom] at h
    split at h
    · cases h
    · rename_i op ho
      rw [eq_cons_of_isSymbol (hop ho)]
      rcases Parsed.bind_eq_stuck.1 h with hr | ⟨r, middle, hr, hmore⟩
      · obtain ⟨used, hused, more, r, hwords, hderives⟩ := hright _ _ _ hr hc
        refine ⟨front ++ current ts :: used, by simp [hused], more, .binary op l r, hwords, ?_⟩
        simpa using hstep hfront ho hderives
      · obtain ⟨us, hus, hderives⟩ := hsound _ _ _ hr
        have hcompletes := ih _ _ _ (hstep hfront ho hderives) hmore
        rwa [List.append_assoc, List.cons_append, ← hus] at hcompletes

theorem chain_completable {operator? : Token → Option Operator} {operand : Production Expr}
    {left right : Expr → Phrase} (hsound : Sound operand right)
    (hright : Completable operand right)
    (hop : ∀ {t op}, operator? t = some op → t.isSymbol op.symbol)
    (hfirst : ∀ {ts e}, Derives ts (right e) → Derives ts (left e))
    (hstep : ∀ {ts us t op l r}, Derives ts (left l) → operator? t = some op →
      Derives us (right r) → Derives (ts ++ t :: us) (left (.binary op l r))) :
    Completable (chain operator? operand) left := by
  intro ts cause rest h hc
  rcases Parsed.bind_eq_stuck.1 h with hl | ⟨l, middle, hl, hmore⟩
  · obtain ⟨used, rfl, more, e, hwords, hderives⟩ := hright _ _ _ hl hc
    exact ⟨used, rfl, more, e, hwords, hfirst hderives⟩
  · obtain ⟨us, rfl, hus⟩ := hsound _ _ _ hl
    exact chainFrom_completable hsound hright hop hstep hc _ _ _ _ _ (hfirst hus) hmore

section Nested

variable {inner : Production Expr}

theorem listFrom_completable (hsound : Sound inner .expr) (hinner : Completable inner .expr)
    (n : Nat) : Completable (listFrom inner n) .exprs := by
  intro ts cause rest h hc
  induction n generalizing ts with
  | zero =>
    cases h
    cases hc
  | succ n ih =>
    rcases Parsed.bind_eq_stuck.1 h with he | ⟨e, middle, he, hmore⟩
    · obtain ⟨used, rfl, more, e, hwords, hderives⟩ := hinner _ _ _ he hc
      exact ⟨used, rfl, more, [e], hwords, .lastExpr hderives⟩
    · obtain ⟨us, rfl, hus⟩ := hsound _ _ _ he
      split at hmore
      · rename_i hcomma
        obtain ⟨used, hused, more, es, hwords, hderives⟩ := ih _ (Parsed.map_eq_stuck.1 hmore)
        refine ⟨us ++ current middle :: used, ?_, more, e :: es, hwords, ?_⟩
        · rw [List.append_assoc, List.cons_append, ← hused, ← eq_cons_of_isSymbol hcomma]
        · simpa using Derives.moreExprs hus hcomma hderives
      · cases hmore

theorem argList_completable (hsound : Sound inner .expr) (hinner : Completable inner .expr) :
    Completable (argList inner) .argList := by
  intro ts cause rest h hc
  unfold argList at h
  split at h
  · cases h
  · obtain ⟨used, rfl, more, es, hwords, hderives⟩ :=
      listFrom_completable hsound hinner _ _ _ _ h hc
    exact ⟨used, rfl, more, es, hwords, .arguments hderives⟩

theorem callRest_completable (hsound : Sound inner .expr) (hinner : Completable inner .expr)
    {t : Token} (hk : t.kind = .name) {ts rest : List Token} {cause : GrammarCause}
    (h : callRest inner t.text ts = .stuck cause rest) (hc : cause.IsReport) :
    Completes .primary (t :: ts) rest := by
  rcases Parsed.bind_eq_stuck.1 h with hopen | ⟨opening, opened, hopen, hcall⟩
  · obtain rfl := expect_eq_stuck hopen
    exact ⟨[t], rfl, [openingToken, closingToken], _, words_opening.append words_closing,
      .call hk (by decide) .noArguments (by decide)⟩
  · obtain ⟨ho, rfl⟩ := expect_eq_done hopen
    rcases Parsed.bind_eq_stuck.1 hcall with hargs | ⟨es, closed, hargs, hclose⟩
    · obtain ⟨used, rfl, more, es, hwords, hderives⟩ :=
        argList_completable hsound hinner _ _ _ hargs hc
      refine ⟨t :: opening :: used, rfl, more ++ [closingToken], .call t.text es,
        hwords.append words_closing, ?_⟩
      simpa using Derives.call hk ho hderives closingToken_isSymbol
    · obtain ⟨us, rfl, hus⟩ := argList_sound hsound _ _ _ hargs
      obtain rfl := expect_eq_stuck (Parsed.map_eq_stuck.1 hclose)
      refine ⟨t :: opening :: us, rfl, [closingToken], .call t.text es, words_closing, ?_⟩
      exact .call hk ho hus closingToken_isSymbol

theorem functionCall_completable (hsound : Sound inner .expr) (hinner : Completable inner .expr) :
    Completable (functionCall inner) .primary := by
  intro ts cause rest h hc
  by_cases hk : (current ts).kind = .name
  · rw [eq_cons_of_kind hk (by decide), functionCall_cons hk] at h
    rw [eq_cons_of_kind hk (by decide)]
    exact callRest_completable hsound hinner hk h hc
  · rw [functionCall, if_neg hk] at h
    cases h
    exact completes_operand ts id

theorem parenthesized_completable (hsound : Sound inner .expr)
    (hinner : Completable inner .expr) : Completable (parenthesized inner) .primary := by
  intro ts cause rest h hc
  unfold parenthesized at h
  split at h
  · rename_i ho
    rw [eq_cons_of_isSymbol ho]
    rcases Parsed.bind_eq_stuck.1 h with he | ⟨e, closed, he, h⟩
    · obtain ⟨used, hused, more, e, hwords, hderives⟩ := hinner _ _ _ he hc
      refine ⟨current ts :: used, by rw [hused]; rfl, more ++ [closingToken], e,
        hwords.append words_closing, ?_⟩
      simpa using Derives.group ho hderives closingToken_isSymbol
    · obtain ⟨us, hus, hderives⟩ := hsound _ _ _ he
      obtain rfl := expect_eq_stuck (Parsed.map_eq_stuck.1 h)
      exact ⟨current ts :: us, by rw [hus]; rfl, [closingToken], e, words_closing,
        .group ho hderives closingToken_isSymbol⟩
  · cases h
    exact completes_operand ts id

theorem primary_completable (hsound : Sound inner .expr) (hinner : Completable inner .expr) :
    Completable (primary inner) .primary := by
  intro ts cause rest h hc
  unfold primary at h
  split at h
  · exact atom_completable _ _ _ h hc
  · split at h
    · exact functionCall_completable hsound hinner _ _ _ h hc
    · exact atom_completable _ _ _ h hc
  · exact parenthesized_completable hsound hinner _ _ _ h hc

theorem derives_minus {minus : Token} {ts : List Token} {e : Expr} (hminus : minus.isSymbol "-")
    (h : Derives ts (.unary e)) : ∃ e', Derives (minus :: ts) (.unary e') := by
  have hkind : ∀ {t : Token} {s : String}, t.isSymbol s → t.kind ≠ .number := by
    intro t s ht hk
    exact absurd ((Token.isSymbol_iff.1 ht).1.symm.trans hk) (by decide)
  cases h with
  | unary h =>
    cases h with
    | number hk hv => exact ⟨_, .negative hminus hk hv⟩
    | name hk => exact ⟨_, .negation hminus (by simp [hk]) (.unary (.name hk))⟩
    | call hk ho hes hc => exact ⟨_, .negation hminus (by simp [hk]) (.unary (.call hk ho hes hc))⟩
    | group ho he hc => exact ⟨_, .negation hminus (hkind ho) (.unary (.group ho he hc))⟩
  | negative hm hk hv => exact ⟨_, .negation hminus (hkind hm) (.negative hm hk hv)⟩
  | negation hm hk he => exact ⟨_, .negation hminus (hkind hm) (.negation hm hk he)⟩

theorem unary_completable (hsound : Sound inner .expr) (hinner : Completable inner .expr) :
    Completable (unary inner) .unary := by
  have hprimary : ∀ ts cause rest, primary inner ts = .stuck cause rest → cause.IsReport →
      Completes .unary ts rest := by
    intro ts cause rest h hc
    obtain ⟨used, rfl, more, e, hwords, hderives⟩ :=
      primary_completable hsound hinner _ _ _ h hc
    exact ⟨used, rfl, more, e, hwords, .unary hderives⟩
  intro ts cause rest h hc
  induction ts with
  | nil => exact hprimary _ _ _ h hc
  | cons t us ih =>
    rw [unary] at h
    split at h
    · rename_i hminus
      split at h
      · exact absurd hc (literal_stuck h)
      · obtain ⟨used, rfl, more, e, hwords, hderives⟩ := ih (Parsed.map_eq_stuck.1 h)
        obtain ⟨e', he'⟩ := derives_minus hminus hderives
        exact ⟨t :: used, rfl, more, e', hwords, he'⟩
    · exact hprimary _ _ _ h hc

theorem product_completable (hsound : Sound inner .expr) (hinner : Completable inner .expr) :
    Completable (product inner) .product := by
  refine chain_completable (unary_sound hsound) (unary_completable hsound hinner) ?_ .product ?_
  · intro t op h
    exact (productOperator?_eq_some_iff.1 h).2
  · intro ts us t op l r hl hop hr
    obtain ⟨hlevel, hsymbol⟩ := productOperator?_eq_some_iff.1 hop
    exact .multiplication hl hlevel hsymbol hr

theorem sum_completable (hsound : Sound inner .expr) (hinner : Completable inner .expr) :
    Completable (sum inner) .sum := by
  refine chain_completable (product_sound hsound) (product_completable hsound hinner) ?_ .sum ?_
  · intro t op h
    exact (sumOperator?_eq_some_iff.1 h).2
  · intro ts us t op l r hl hop hr
    obtain ⟨hlevel, hsymbol⟩ := sumOperator?_eq_some_iff.1 hop
    exact .addition hl hlevel hsymbol hr

end Nested

theorem exprWithin_completable (n : Nat) : Completable (exprWithin n) .expr := by
  induction n with
  | zero =>
    intro ts cause rest h hc
    cases h
    cases hc
  | succ n ih =>
    intro ts cause rest h hc
    obtain ⟨used, rfl, more, e, hwords, hderives⟩ :=
      sum_completable (exprWithin_sound n) ih _ _ _ h hc
    exact ⟨used, rfl, more, e, hwords, .expr hderives⟩

theorem expr_sound : Sound expr .expr := fun ts => exprWithin_sound _ ts

theorem expr_completable : Completable expr .expr := fun ts => exprWithin_completable _ ts

theorem whole_sound {p : Production Expr} {phrase : Expr → Phrase} (hsound : Sound p phrase) :
    Sound (whole p) phrase := fun _ _ _ h => hsound _ _ _ (whole_eq_done.1 h).1

theorem whole_completable {p : Production Expr} {phrase : Expr → Phrase} (hsound : Sound p phrase)
    (hp : Completable p phrase) : Completable (whole p) phrase := by
  intro ts cause rest h hc
  rcases Parsed.bind_eq_stuck.1 h with he | ⟨e, middle, he, hend⟩
  · exact hp _ _ _ he hc
  · obtain ⟨used, rfl, hused⟩ := hsound _ _ _ he
    have hstop := Parsed.map_eq_stuck.1 hend
    unfold expectEnd at hstop
    split at hstop
    · cases hstop
    · cases hstop
      exact ⟨used, rfl, [], e, by simp [Words], by simpa using hused⟩

/-! ## The token that an error names -/

def Accepted (ts : List Token) : Prop :=
  ∃ mark e rest, mark.kind = .endOfInput ∧ mark.text = "" ∧ program (ts ++ [mark]) = .done e rest

theorem accepted_iff {ts : List Token} (hts : ∀ t ∈ ts, t.kind ≠ .endOfInput) :
    Accepted ts ↔ ∃ e, Derives ts (.expr e) := by
  constructor
  · rintro ⟨mark, e, rest, hmark, htext, h⟩
    exact ⟨e, (program_eq_done_iff hts hmark htext).1 ⟨rest, h⟩⟩
  · rintro ⟨e, h⟩
    let mark : Token := ⟨.endOfInput, "", 0, 0⟩
    have hmark : mark.kind = .endOfInput := rfl
    obtain ⟨rest, hdone⟩ := (program_eq_done_iff hts hmark rfl).2 h
    exact ⟨mark, e, rest, rfl, rfl, hdone⟩

/-- Where the reader is stuck it is stuck whatever follows. -/
theorem program_stuck_again {used rest : List Token} {t : Token} {cause : GrammarCause}
    (h : program (used ++ t :: rest) = .stuck cause (t :: rest)) (hc : cause.IsReport)
    (more : List Token) : program (used ++ t :: more) = .stuck cause (t :: more) := by
  have hlocal := whole_local (expr_local ((used ++ t :: more).length + 1)) (used ++ t :: rest)
  change Repeats _ _ (program (used ++ t :: rest)) program at hlocal
  rw [h] at hlocal
  exact (hlocal hc).2 used t rest more rfl rfl (Nat.lt_succ_self _)

/-- Where the reader is stuck in tokens that end with a mark: what it has used begins an accepted
    list, and with the token after that it begins none. -/
theorem program_stuck_place {ts rest : List Token} {mark : Token} {cause : GrammarCause}
    (hts : ∀ t ∈ ts, t.kind ≠ .endOfInput) (hmark : mark.kind = .endOfInput)
    (htext : mark.text = "") (h : program (ts ++ [mark]) = .stuck cause rest)
    (hc : cause.IsReport) :
    ∃ used t left, rest = t :: left ∧ ts ++ [mark] = used ++ t :: left ∧
      (∃ more, Words more ∧ Accepted (used ++ more)) ∧
      (∀ more, ¬ Accepted (used ++ t :: more)) ∧
      (t.kind = .endOfInput → used = ts ∧ ¬ Accepted ts) := by
  obtain ⟨used, hused, more, e, hmore, hderives⟩ :=
    whole_completable expr_sound expr_completable _ _ _ h hc
  have hkinds : ∀ t ∈ used, t.kind ≠ .endOfInput :=
    fun t ht => kind_of_derives hderives t (List.mem_append_left more ht)
  cases rest with
  | nil =>
    rw [List.append_nil] at hused
    exact absurd hmark (hkinds mark (hused ▸ by simp))
  | cons t left =>
    refine ⟨used, t, left, rfl, hused, ⟨more, hmore, ?_⟩, ?_, ?_⟩
    · exact (accepted_iff (kind_of_derives hderives)).2 ⟨e, hderives⟩
    · rintro later ⟨mark', e', rest', -, -, hdone⟩
      rw [hused] at h
      rw [List.append_assoc, List.cons_append,
        program_stuck_again h hc (later ++ [mark'])] at hdone
      cases hdone
    · intro hk
      have hcurrent : (current (t :: left)).kind = .endOfInput := hk
      refine ⟨split_at_mark hts hmark hkinds hcurrent hused, fun haccepted => ?_⟩
      obtain ⟨e', he'⟩ := (accepted_iff hts).1 haccepted
      obtain ⟨rest', hdone⟩ := (program_eq_done_iff hts hmark htext).2 he'
      rw [hdone] at h
      cases h

/-- An error names the first token that does not fit: what stands before it begins an accepted list
    of words, and what stands up to it, the token included, begins none. -/
theorem parse_error_place {source : String} {ts : List Token} {mark : Token} {err : SourceError}
    (h : tokenize source = .ok (ts ++ [mark])) (herr : parse source = .error err) :
    err.IsParseError ∧ ∃ used t rest, ts ++ [mark] = used ++ t :: rest ∧
      err.line = t.line ∧ err.col = t.col ∧
      (∃ more, Words more ∧ Accepted (used ++ more)) ∧
      (∀ more, ¬ Accepted (used ++ t :: more)) ∧
      (t.kind = .endOfInput → used = ts ∧ ¬ Accepted ts) := by
  obtain ⟨us, mark', heq, hmark, htext, hwords⟩ := Lexer.complete_of_tokensFrom h
  obtain ⟨rfl, hlast⟩ := List.append_inj' heq rfl
  obtain rfl := List.singleton_inj.1 hlast
  have hts : ∀ t ∈ ts, t.kind ≠ .endOfInput := fun t ht => kind_of_word (hwords t ht)
  rcases parse_eq_ok_or_report h with ⟨e, he⟩ | ⟨err', herr', hreport⟩
  · rw [he] at herr
    cases herr
  obtain rfl : err' = err := Except.error.inj (herr'.symm.trans herr)
  refine ⟨hreport, ?_⟩
  rw [parse_of_tokens h] at herr
  cases hstuck : program (ts ++ [mark]) with
  | done e rest =>
    rw [hstuck] at herr
    cases herr
  | stuck cause rest =>
    rw [hstuck] at herr
    cases herr
    obtain ⟨used, t, left, rfl, hsplit, hplace⟩ :=
      program_stuck_place hts hmark htext hstuck hreport
    exact ⟨used, t, left, hsplit, rfl, rfl, hplace⟩

/-- The second of two names without a comma; the call it stands in is still open. -/
theorem parse_error_place_missing_comma :
    ∃ used t rest, [⟨.name, "f", 1, 1⟩, ⟨.symbol, "(", 1, 2⟩, ⟨.name, "x", 1, 3⟩,
        ⟨.name, "y", 1, 5⟩, ⟨.endOfInput, "", 1, 6⟩] = used ++ t :: rest ∧
      1 = t.line ∧ 5 = t.col ∧ (∃ more, Words more ∧ Accepted (used ++ more)) ∧
      ∀ more, ¬ Accepted (used ++ t :: more) := by
  have htokens : tokenize "f(x y" = .ok ([⟨.name, "f", 1, 1⟩, ⟨.symbol, "(", 1, 2⟩,
      ⟨.name, "x", 1, 3⟩, ⟨.name, "y", 1, 5⟩] ++ [⟨.endOfInput, "", 1, 6⟩]) := by cbv
  have herr : parse "f(x y" = .error (.grammatical (.expectedSymbol ")") ⟨.name, "y", 1, 5⟩) := by
    rw [parse_of_tokens htokens]
    rfl
  obtain ⟨-, used, t, rest, htokens, hline, hcol, hmore, hnone, -⟩ := parse_error_place htokens herr
  exact ⟨used, t, rest, htokens, hline, hcol, hmore, hnone⟩

end ArithCompiler.Grammar

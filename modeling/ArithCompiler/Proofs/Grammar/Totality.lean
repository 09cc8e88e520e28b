import ArithCompiler.Proofs.Grammar.Viability
import ArithCompiler.Proofs.Number.Wide
import ArithCompiler.Tree.Cursor

set_option autoImplicit false

/-!
# Every text is read or refused

A method of the reader that starts at a token of a text ends at one, whether it has a value or is
stuck: it never uses the mark of the end, and never looks behind it. As the numerals of the lexer
can all be read, there are only two ways not to have a tree.
-/

namespace ArithCompiler.Grammar

inductive Rule where
  | program
  | expr
  | sum
  | product
  | unary
  | primary
  | atom
  | functionCall

namespace Rule

def production (inner : Production Expr) : Rule → Production Expr
  | program => whole inner
  | expr => inner
  | sum => Grammar.sum inner
  | product => Grammar.product inner
  | unary => Grammar.unary inner
  | primary => Grammar.primary inner
  | atom => Grammar.atom
  | functionCall => Grammar.functionCall inner

theorem orderly (r : Rule) {ts : List Token} (hread : Readable ts) :
    Orderly 1 ts (r.production Grammar.expr ts) := by
  have hbelow : OrderlyBelow ts.length Grammar.expr := fun us hus _ => expr_orderly hus
  have hlen := Nat.lt_succ_self ts.length
  cases r with
  | program => exact whole_orderly (fun _ => expr_orderly) hread
  | expr => exact expr_orderly hread
  | sum => exact sum_orderly hbelow ts hread hlen
  | product => exact product_orderly hbelow ts hread hlen
  | unary => exact unary_orderly hbelow ts hread hlen
  | primary => exact primary_orderly hbelow ts hread hlen
  | atom => exact atom_orderly hread
  | functionCall => exact functionCall_orderly hbelow ts hread hlen

theorem production_local (r : Rule) {n : Nat} {inner inner' : Production Expr}
    (h : Local n inner inner') : Local n (r.production inner) (r.production inner') := by
  have hn := Nat.le_succ n
  cases r with
  | program => exact whole_local h
  | expr => exact h
  | sum => exact (sum_local h).mono hn
  | product => exact (product_local h).mono hn
  | unary => exact (unary_local h).mono hn
  | primary => exact (primary_local h).mono hn
  | atom => exact atom_local n
  | functionCall => exact (functionCall_local h).mono hn

end Rule

inductive Method : {α : Type} → Production α → Prop
  | program : Method program
  | expr : Method expr
  | sum : Method (sum expr)
  | product : Method (product expr)
  | unary : Method (unary expr)
  | primary : Method (primary expr)
  | atom : Method atom
  | functionCall : Method (functionCall expr)
  | argList : Method (argList expr)
  | expect (symbol : String) : Method (expect symbol)
  | expectEnd : Method expectEnd

theorem Rule.method (r : Rule) : Method (r.production Grammar.expr) := by
  cases r <;> constructor

section Places

variable {α : Type} {p : Production α}

/-! ## Methods stay in the list -/

def Marked (ts : List Token) : Prop := ∃ front mark, ts = front ++ [mark] ∧ mark.kind = .endOfInput

theorem Marked.of_suffix {ts us : List Token} (h : Marked ts) (hs : us <:+ ts) (hne : us ≠ []) :
    Marked us := by
  obtain ⟨front, mark, rfl, hmark⟩ := h
  rcases List.suffix_concat_iff.1 hs with rfl | ⟨us, rfl, -⟩
  · exact absurd rfl hne
  · exact ⟨us, mark, rfl, hmark⟩

theorem Marked.rest_ne_nil {ts used rest : List Token} (h : Marked ts) (hts : ts = used ++ rest)
    (hused : ∀ t ∈ used, t.kind ≠ .endOfInput) : rest ≠ [] := by
  rintro rfl
  obtain ⟨front, mark, rfl, hmark⟩ := h
  rw [List.append_nil] at hts
  exact hused mark (hts ▸ by simp) hmark

def Stays (p : Production α) : Prop :=
  ∀ ts, Readable ts → Marked ts → (p ts).IsReport ∧ (p ts).rest <:+ ts ∧ (p ts).rest ≠ []

/-- What is used belongs to a phrase, and the mark belongs to none. -/
theorem stays_of_phrase {phrase : α → Phrase} (hsound : Sound p phrase) (hp : Completable p phrase)
    (horderly : ∀ ts, Readable ts → Orderly 0 ts (p ts)) : Stays p := by
  intro ts hread hmarked
  have ho := horderly ts hread
  cases houtcome : p ts with
  | done a rest =>
    rw [houtcome] at ho
    obtain ⟨used, hused, hderives⟩ := hsound _ _ _ houtcome
    exact ⟨trivial, ho.1, hmarked.rest_ne_nil hused (kind_of_derives hderives)⟩
  | stuck cause rest =>
    rw [houtcome] at ho
    obtain ⟨used, hused, more, a, -, hderives⟩ := hp _ _ _ houtcome ho.2
    refine ⟨ho.2, ho.1, hmarked.rest_ne_nil hused fun t ht => ?_⟩
    exact kind_of_derives hderives t (List.mem_append_left more ht)

theorem expect_stays (symbol : String) : Stays (expect symbol) := by
  intro ts _ hmarked
  by_cases h : (current ts).isSymbol symbol
  · have hsplit : ts = [current ts] ++ advance ts := eq_cons_of_isSymbol h
    have hne : advance ts ≠ [] := by
      refine hmarked.rest_ne_nil hsplit fun t ht => ?_
      obtain rfl := List.mem_singleton.1 ht
      simp [(Token.isSymbol_iff.1 h).1]
    rw [expect, if_pos h]
    exact ⟨trivial, advance_suffix ts, hne⟩
  · obtain ⟨front, mark, rfl, -⟩ := hmarked
    simp [expect, h, Parsed.IsReport, GrammarCause.IsReport, Parsed.rest]

theorem expectEnd_stays : Stays expectEnd := by
  intro ts _ hmarked
  obtain ⟨front, mark, rfl, -⟩ := hmarked
  by_cases h : (current (front ++ [mark])).kind = .endOfInput <;>
    simp [expectEnd, h, Parsed.IsReport, GrammarCause.IsReport, Parsed.rest]

theorem method_stays (h : Method p) : Stays p := by
  have hrule : ∀ (r : Rule) (phrase : Expr → Phrase), Sound (r.production expr) phrase →
      Completable (r.production expr) phrase → Stays (r.production expr) :=
    fun r _ hsound hp => stays_of_phrase hsound hp fun _ hread =>
      (r.orderly hread).weaken (Nat.zero_le 1)
  cases h with
  | program =>
    exact hrule .program _ (whole_sound expr_sound) (whole_completable expr_sound expr_completable)
  | expr => exact hrule .expr _ expr_sound expr_completable
  | sum => exact hrule .sum _ (sum_sound expr_sound) (sum_completable expr_sound expr_completable)
  | product =>
    exact hrule .product _ (product_sound expr_sound)
      (product_completable expr_sound expr_completable)
  | unary =>
    exact hrule .unary _ (unary_sound expr_sound) (unary_completable expr_sound expr_completable)
  | primary =>
    exact hrule .primary _ (primary_sound expr_sound)
      (primary_completable expr_sound expr_completable)
  | atom => exact hrule .atom _ atom_sound atom_completable
  | functionCall =>
    exact hrule .functionCall _ (functionCall_sound expr_sound)
      (functionCall_completable expr_sound expr_completable)
  | argList =>
    exact stays_of_phrase (argList_sound expr_sound)
      (argList_completable expr_sound expr_completable)
      fun ts hread => argList_orderly (fun _ hread _ => expr_orderly hread) ts hread
        (Nat.lt_succ_self _)
  | expect symbol => exact expect_stays symbol
  | expectEnd => exact expectEnd_stays

theorem method_local (h : Method p) (n : Nat) : Local n p p := by
  have hrule : ∀ r : Rule, Local n (r.production expr) (r.production expr) := fun r =>
    r.production_local (expr_local n)
  cases h with
  | program => exact hrule .program
  | expr => exact hrule .expr
  | sum => exact hrule .sum
  | product => exact hrule .product
  | unary => exact hrule .unary
  | primary => exact hrule .primary
  | atom => exact hrule .atom
  | functionCall => exact hrule .functionCall
  | argList => exact argList_local (expr_local n)
  | expect symbol => exact expect_local symbol n
  | expectEnd => exact expectEnd_local n

structure RunsInRange (p : Production α) (tokens : List Token) (pos : Nat) : Prop where
  forward : pos ≤ ((Cursor.mk tokens pos).run p).2.pos
  inRange : ((Cursor.mk tokens pos).run p).2.pos < tokens.length
  report : ∀ err, ((Cursor.mk tokens pos).run p).1 = .error err → err.IsParseError ∧
    ∃ cause t, err = .grammatical cause t ∧ tokens[((Cursor.mk tokens pos).run p).2.pos]? = some t
  /-- Tokens behind the end of the list would not be looked at. -/
  alone : ∀ more, (Cursor.mk (tokens ++ more) pos).run p =
    (((Cursor.mk tokens pos).run p).1, ⟨tokens ++ more, ((Cursor.mk tokens pos).run p).2.pos⟩)

theorem rest_withRest (o : Parsed α) (us : List Token) : (o.withRest us).rest = us := by
  cases o <;> rfl

theorem toExcept_withRest {o : Parsed α} {us : List Token} (h : current us = current o.rest) :
    (o.withRest us).toExcept = o.toExcept := by
  cases o with
  | done a rest => rfl
  | stuck cause rest => exact congrArg (fun t => Except.error (SourceError.grammatical cause t)) h

theorem error_of_toExcept {o : Parsed α} (ho : o.IsReport) {err : SourceError}
    (h : o.toExcept = .error err) :
    err.IsParseError ∧ ∃ cause, err = .grammatical cause (current o.rest) := by
  cases o with
  | done a rest => cases h
  | stuck cause rest =>
    cases h
    exact ⟨ho, cause, rfl⟩

section Runs

variable {tokens : List Token} {pos : Nat}

theorem method_stays_from (h : Method p) (hread : Readable tokens) (hmarked : Marked tokens)
    (hpos : pos < tokens.length) : (p (tokens.drop pos)).IsReport ∧
      (p (tokens.drop pos)).rest <:+ tokens.drop pos ∧ (p (tokens.drop pos)).rest ≠ [] := by
  have hsuffix : tokens.drop pos <:+ tokens := List.drop_suffix pos tokens
  have hne : tokens.drop pos ≠ [] := by simpa using hpos
  exact method_stays h _ (hread.of_suffix hsuffix) (hmarked.of_suffix hsuffix hne)

/-- A production that does the same on lists that begin alike does the same in the place of the
    method, whatever tokens are behind the end. -/
theorem run_of_local {q : Production α} (h : Method p) (hread : Readable tokens)
    (hmarked : Marked tokens) (hpos : pos < tokens.length) {n : Nat} (hlocal : Local n p q)
    (more : List Token) (hn : tokens.length + more.length < pos + n) :
    (Cursor.mk (tokens ++ more) pos).run q = (((Cursor.mk tokens pos).run p).1,
      ⟨tokens ++ more, ((Cursor.mk tokens pos).run p).2.pos⟩) := by
  obtain ⟨hreport, ⟨used, hused⟩, hsome⟩ := method_stays_from h hread hmarked hpos
  obtain ⟨t, left, hleft⟩ := List.exists_cons_of_ne_nil hsome
  rw [hleft] at hused
  have hdrop : (tokens ++ more).drop pos = used ++ t :: (left ++ more) := by
    rw [List.drop_append_of_le_length (Nat.le_of_lt hpos), ← hused, List.append_assoc,
      List.cons_append]
  have hlen := congrArg List.length hdrop
  rw [List.length_drop, List.length_append] at hlen
  have hmore : q (used ++ t :: (left ++ more)) =
      (p (tokens.drop pos)).withRest (t :: (left ++ more)) :=
    (hlocal _ hreport).2 used t left (left ++ more) hused.symm hleft (by omega)
  simp only [Cursor.run, Cursor.remaining, hdrop, hmore, rest_withRest, hleft,
    List.length_append, List.length_cons]
  rw [toExcept_withRest (by rw [hleft]; rfl)]
  congr 2
  omega

theorem runsInRange (hread : Readable tokens) (hmarked : Marked tokens)
    (h : Method p) (hpos : pos < tokens.length) : RunsInRange p tokens pos := by
  obtain ⟨hreport, hrest, hsome⟩ := method_stays_from h hread hmarked hpos
  have hlen : (p (tokens.drop pos)).rest.length ≤ tokens.length - pos := by
    simpa using hrest.length_le
  have hlong : 0 < (p (tokens.drop pos)).rest.length := List.length_pos_iff.2 hsome
  obtain ⟨t, left, hleft⟩ := List.exists_cons_of_ne_nil hsome
  refine ⟨?_, ?_, ?_, fun more => ?_⟩
  · simp only [Cursor.run, Cursor.remaining]
    omega
  · simp only [Cursor.run, Cursor.remaining]
    omega
  · intro err herr
    obtain ⟨hparse, cause, rfl⟩ := error_of_toExcept hreport herr
    refine ⟨hparse, cause, _, rfl, ?_⟩
    have hplace := List.suffix_iff_eq_drop.1 (hrest.trans (List.drop_suffix pos tokens))
    simp only [Cursor.run, Cursor.remaining]
    rw [← List.head?_drop, ← hplace, hleft]
    rfl
  · exact run_of_local h hread hmarked hpos
      (method_local h (tokens.length + more.length + 1)) more (by omega)

end Runs

end Places

theorem advance_inRange {tokens : List Token} (hmarked : Marked tokens) {pos : Nat}
    (hpos : pos < tokens.length) : (Cursor.mk tokens pos).advance.pos < tokens.length := by
  have hne : tokens.drop pos ≠ [] := by simpa using hpos
  obtain ⟨front, mark, hdrop, hmark⟩ := hmarked.of_suffix (List.drop_suffix pos tokens) hne
  unfold Cursor.advance
  split
  · exact hpos
  · rename_i hk
    cases front with
    | nil =>
      refine absurd ?_ hk
      simp [Cursor.current, Cursor.remaining, hdrop, hmark]
    | cons t front =>
      have hlen := congrArg List.length hdrop
      simp only [List.length_drop, List.length_append, List.length_cons, List.length_nil] at hlen
      change pos + 1 < tokens.length
      omega

theorem peek?_isSome {tokens : List Token} {pos : Nat} (hpos : pos < tokens.length)
    (offset : Nat) : ((Cursor.mk tokens pos).peek? offset).isSome := by
  simp only [Cursor.peek?]
  split
  · rw [List.getLast?_isSome]
    rintro rfl
    exact absurd hpos (Nat.not_lt_zero pos)
  · rw [if_pos (by omega), List.getElem?_eq_getElem (by omega)]
    rfl

/-! ## Operators -/

/-- What a loop does at a token. At one of `symbols` the text is that of an operator, with which the
    loop goes on; at any other token it ends. -/
def LoopsOn (symbols : List String) (operator? : Token → Option Operator) : Prop :=
  ∀ t, (∀ s ∈ symbols, t.isSymbol s →
      ∃ op, Operator.ofSymbol? t.text = some op ∧ operator? t = some op) ∧
    ((∀ s ∈ symbols, ¬ t.isSymbol s) → operator? t = none)

theorem loopsOn_of_level {n : Nat} {symbols : List String} {operator? : Token → Option Operator}
    (hop : ∀ {t op}, operator? t = some op ↔ op.level = n ∧ t.isSymbol op.symbol)
    (hsymbols : ∀ s, s ∈ symbols ↔ ∃ op : Operator, op.level = n ∧ op.symbol = s) :
    LoopsOn symbols operator? := by
  intro t
  constructor
  · intro s hs ht
    obtain ⟨op, hlevel, rfl⟩ := (hsymbols s).1 hs
    refine ⟨op, ?_, hop.2 ⟨hlevel, ht⟩⟩
    rw [(Token.isSymbol_iff.1 ht).2, Operator.ofSymbol?_symbol]
  · intro hnone
    rw [Option.eq_none_iff_forall_ne_some]
    intro op h
    obtain ⟨hlevel, ht⟩ := hop.1 h
    exact hnone _ ((hsymbols _).2 ⟨op, hlevel, rfl⟩) ht

theorem loopsOn_sum : LoopsOn ["+", "-"] sumOperator? := by
  refine loopsOn_of_level sumOperator?_eq_some_iff fun s => ?_
  constructor
  · intro hs
    simp only [List.mem_cons, List.not_mem_nil, or_false] at hs
    rcases hs with rfl | rfl
    · exact ⟨.add, rfl, rfl⟩
    · exact ⟨.subtract, rfl, rfl⟩
  · rintro ⟨op, hlevel, rfl⟩
    cases op with
    | add | subtract => decide
    | multiply | divide => cases hlevel

theorem loopsOn_product : LoopsOn ["*", "/"] productOperator? := by
  refine loopsOn_of_level productOperator?_eq_some_iff fun s => ?_
  constructor
  · intro hs
    simp only [List.mem_cons, List.not_mem_nil, or_false] at hs
    rcases hs with rfl | rfl
    · exact ⟨.multiply, rfl, rfl⟩
    · exact ⟨.divide, rfl, rfl⟩
  · rintro ⟨op, hlevel, rfl⟩
    cases op with
    | add | subtract => cases hlevel
    | multiply | divide => decide

/-! ## The readers -/

def HasOutcome (read : String → Except SourceError Expr) (source : String) : Prop :=
  (∃ e, read source = .ok e) ∨ ∃ err, read source = .error err ∧
    (tokenize source = .error err ∧ err.IsTokenizeError ∨ err.IsParseError)

theorem hasOutcome_parseWith {p : Production Expr} (hp : ∀ ts, Readable ts → Orderly 1 ts (p ts))
    (source : String) : HasOutcome (parseWith p) source := by
  cases h : tokenize source with
  | error err =>
    refine .inr ⟨_, ?_, .inl ⟨h, Lexer.isTokenizeError_of_tokensFrom h⟩⟩
    simp only [parseWith, h]
    rfl
  | ok tokens =>
    rcases parseWith_eq_ok_or_report hp h with htree | ⟨err, herr, hparse⟩
    · exact .inl htree
    · exact .inr ⟨err, herr, .inr hparse⟩

theorem marked_of_tokens {source : String} {tokens : List Token}
    (h : tokenize source = .ok tokens) : Marked tokens := by
  obtain ⟨ts, mark, rfl, hmark, -, -⟩ := Lexer.complete_of_tokensFrom h
  exact ⟨ts, mark, rfl, hmark⟩

/-- The readers are total. Every number can be read; from any token of the text no step and no
    method leaves the list of tokens, or would look behind it; and what is taken for an operator is
    one. -/
theorem readers_total (source : String) :
    HasOutcome parse source ∧ HasOutcome parseAtom source ∧ HasOutcome parseCall source ∧
      (∀ tokens, tokenize source = .ok tokens →
        (∀ t ∈ tokens, t.kind = .number → ∃ v, Number.ofText? t.text = some v ∧
          Number.ofNumeral? t.text.toList = some v) ∧
        ∀ pos < tokens.length, (Cursor.mk tokens pos).advance.pos < tokens.length ∧
          (∀ offset : Nat, ((Cursor.mk tokens pos).peek? offset).isSome) ∧
          ∀ {α : Type} {p : Production α}, Method p → RunsInRange p tokens pos) ∧
      LoopsOn ["+", "-"] sumOperator? ∧ LoopsOn ["*", "/"] productOperator? := by
  have hexpr : ∀ ts, Readable ts → Orderly 1 ts (expr ts) := fun _ => expr_orderly
  have hcall : ∀ ts, Readable ts → Orderly 1 ts (functionCall expr ts) := fun ts hread =>
    functionCall_orderly (fun _ hread _ => expr_orderly hread) ts hread (Nat.lt_succ_self _)
  refine ⟨hasOutcome_parseWith hexpr source, hasOutcome_parseWith (fun _ => atom_orderly) source,
    hasOutcome_parseWith hcall source, ?_, loopsOn_sum, loopsOn_product⟩
  intro tokens h
  have hmarked := marked_of_tokens h
  refine ⟨fun t ht hk => ?_, fun pos hpos => ⟨advance_inRange hmarked hpos, peek?_isSome hpos,
    fun hp => runsInRange (readable_of_tokens h) hmarked hp hpos⟩⟩
  obtain ⟨v, hv⟩ := readable_of_tokens h t ht hk
  have htext := Number.ofText?_of_numeral ((Lexer.complete_of_tokensFrom h).numeral t ht hk)
  rw [String.ofList_toList, hv] at htext
  exact ⟨v, htext, hv⟩

/-- A point at the end of a number, and one before an exponent. -/
theorem readers_total_points :
    (∃ v, Number.ofText? "7." = some v) ∧ (∃ v, Number.ofText? "1.e+5" = some v) := by
  have htokens : tokenize "7.+1.e+5" = .ok [⟨.number, "7.", 1, 1⟩, ⟨.symbol, "+", 1, 3⟩,
      ⟨.number, "1.e+5", 1, 4⟩, ⟨.endOfInput, "", 1, 9⟩] := by cbv
  obtain ⟨-, -, -, htext, -⟩ := readers_total "7.+1.e+5"
  obtain ⟨hread, -⟩ := htext _ htokens
  obtain ⟨v, hv, -⟩ := hread ⟨.number, "7.", 1, 1⟩ (by simp) rfl
  obtain ⟨w, hw, -⟩ := hread ⟨.number, "1.e+5", 1, 4⟩ (by simp) rfl
  exact ⟨⟨v, hv⟩, ⟨w, hw⟩⟩

end ArithCompiler.Grammar

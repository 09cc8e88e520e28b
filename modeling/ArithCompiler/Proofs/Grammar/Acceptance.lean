import Mathlib.Data.List.Basic
import ArithCompiler.Proofs.Grammar.Completeness
import ArithCompiler.Proofs.Grammar.Progress
import ArithCompiler.Proofs.Lexer.Tokens

set_option autoImplicit false

/-!
# The texts that are accepted

A text is read as an expression exactly when its tokens derive one, and the tree is the one that
they derive. Otherwise the reader says at which token it is stuck.
-/

namespace ArithCompiler

def SourceError.IsParseError : SourceError → Prop
  | lexical _ _ _ => False
  | grammatical cause _ => cause.IsReport

namespace Grammar

theorem kind_of_word {t : Token} (h : Lexer.Word t.kind t.text.toList) : t.kind ≠ .endOfInput := by
  intro hk
  rw [hk] at h
  cases h

theorem kind_of_derives {ts : List Token} {p : Phrase} (h : Derives ts p) :
    ∀ t ∈ ts, t.kind ≠ .endOfInput := by
  have hsymbol : ∀ {t : Token} {s : String}, t.isSymbol s → t.kind ≠ .endOfInput := by
    intro t s ht hk
    exact absurd ((Token.isSymbol_iff.1 ht).1.symm.trans hk) (by decide)
  induction h with
  | expr _ ih | sum _ ih | product _ ih | unary _ ih | arguments _ ih | lastExpr _ ih => exact ih
  | addition _ _ ht _ ihl ihr | multiplication _ _ ht _ ihl ihr | moreExprs _ ht _ ihl ihr =>
    intro t hmem
    rcases List.mem_append.1 hmem with hmem | hmem
    · exact ihl t hmem
    · rcases List.mem_cons.1 hmem with rfl | hmem
      · exact hsymbol ht
      · exact ihr t hmem
  | negative hm hk =>
    intro t hmem
    simp only [List.mem_cons, List.not_mem_nil, or_false] at hmem
    rcases hmem with rfl | rfl
    · exact hsymbol hm
    · simp [hk]
  | negation hm _ _ ih =>
    intro t hmem
    rcases List.mem_cons.1 hmem with rfl | hmem
    · exact hsymbol hm
    · exact ih t hmem
  | number hk | name hk =>
    intro t hmem
    obtain rfl := List.mem_singleton.1 hmem
    simp [hk]
  | call hk ho _ hc ih =>
    intro t hmem
    simp only [List.mem_cons, List.mem_append, List.not_mem_nil, or_false] at hmem
    rcases hmem with rfl | rfl | hmem | rfl
    · simp [hk]
    · exact hsymbol ho
    · exact ih t hmem
    · exact hsymbol hc
  | group ho _ hc ih =>
    intro t hmem
    simp only [List.mem_cons, List.mem_append, List.not_mem_nil, or_false] at hmem
    rcases hmem with rfl | hmem | rfl
    · exact hsymbol ho
    · exact ih t hmem
    · exact hsymbol hc
  | noArguments => simp

/-- The only end mark is the last token, so a reader that stops at one has read all before it. -/
theorem split_at_mark {ts used rest : List Token} {mark : Token}
    (hts : ∀ t ∈ ts, t.kind ≠ .endOfInput) (hmark : mark.kind = .endOfInput)
    (hused : ∀ t ∈ used, t.kind ≠ .endOfInput) (hrest : (current rest).kind = .endOfInput)
    (h : ts ++ [mark] = used ++ rest) : used = ts := by
  rcases List.append_eq_append_iff.1 h with ⟨more, rfl, hmore⟩ | ⟨more, rfl, hmore⟩
  · cases more with
    | nil => simp
    | cons m more =>
      obtain ⟨rfl, -⟩ : mark = m ∧ _ := by simpa using hmore
      exact absurd hmark (hused mark (by simp))
  · cases more with
    | nil => simp
    | cons m more =>
      rw [hmore] at hrest
      exact absurd hrest (hts m (by simp))

theorem whole_eq_done {p : Production Expr} {ts rest : List Token} {e : Expr} :
    whole p ts = .done e rest ↔ p ts = .done e rest ∧ (current rest).kind = .endOfInput := by
  constructor
  · intro h
    obtain ⟨e', middle, he, hend⟩ := Parsed.bind_eq_done.1 h
    obtain ⟨_, hdone, rfl⟩ := Parsed.map_eq_done.1 hend
    unfold expectEnd at hdone
    split at hdone
    · rename_i hstop
      cases hdone
      exact ⟨he, hstop⟩
    · cases hdone
  · rintro ⟨h, hstop⟩
    simp [whole, h, Parsed.bind, expectEnd, hstop, Parsed.map]

theorem program_eq_done_iff {ts : List Token} {mark : Token} {e : Expr}
    (hts : ∀ t ∈ ts, t.kind ≠ .endOfInput) (hmark : mark.kind = .endOfInput)
    (htext : mark.text = "") :
    (∃ rest, program (ts ++ [mark]) = .done e rest) ↔ Derives ts (.expr e) := by
  constructor
  · rintro ⟨rest, h⟩
    obtain ⟨he, hstop⟩ := whole_eq_done.1 h
    obtain ⟨used, heq, hderives⟩ := exprWithin_sound _ _ _ _ he
    obtain rfl := split_at_mark hts hmark (kind_of_derives hderives) hstop heq
    exact hderives
  · intro h
    have hend : EndsSum [mark] :=
      endsSum_of_kind (by simp [hmark]) (by simp [EndsUnary, htext])
    exact ⟨[mark], whole_eq_done.2 ⟨expr_of_derives h hend, hmark⟩⟩

theorem whole_orderly {p : Production Expr} (hp : ∀ ts, Readable ts → Orderly 1 ts (p ts))
    {ts : List Token} (h : Readable ts) : Orderly 1 ts (whole p ts) := by
  refine (hp ts h).bind (l := 0) ?_
  intro e rest _ _
  exact (expectEnd_orderly rest).map _

theorem readable_of_tokens {source : String} {tokens : List Token}
    (h : tokenize source = .ok tokens) : Readable tokens := by
  intro t ht hk
  have hnumeral := (Lexer.complete_of_tokensFrom h).numeral t ht hk
  obtain ⟨d, hd⟩ := Option.isSome_iff_exists.1 (Lexer.numeral_iff_decimal?.1 hnumeral)
  exact ⟨d.toFloat, by rw [Number.ofNumeral?, hd]; rfl⟩

theorem parseWith_of_tokens (p : Production Expr) {source : String} {tokens : List Token}
    (h : tokenize source = .ok tokens) : parseWith p source = (whole p tokens).toExcept := by
  simp only [parseWith, h]
  rfl

theorem parse_of_tokens {source : String} {tokens : List Token}
    (h : tokenize source = .ok tokens) : parse source = (program tokens).toExcept :=
  parseWith_of_tokens expr h

theorem parseWith_eq_ok_or_report {p : Production Expr}
    (hp : ∀ ts, Readable ts → Orderly 1 ts (p ts)) {source : String} {tokens : List Token}
    (h : tokenize source = .ok tokens) : (∃ e, parseWith p source = .ok e) ∨
      ∃ err, parseWith p source = .error err ∧ err.IsParseError := by
  have horderly := whole_orderly hp (readable_of_tokens h)
  rw [parseWith_of_tokens p h]
  cases hwhole : whole p tokens with
  | done e rest => exact .inl ⟨e, rfl⟩
  | stuck cause rest =>
    rw [hwhole] at horderly
    exact .inr ⟨_, rfl, horderly.2⟩

theorem parse_eq_ok_or_report {source : String} {tokens : List Token}
    (h : tokenize source = .ok tokens) :
    (∃ e, parse source = .ok e) ∨ ∃ err, parse source = .error err ∧ err.IsParseError :=
  parseWith_eq_ok_or_report (fun _ => expr_orderly) h

theorem parse_of_derives {source : String} {ts : List Token} {mark : Token} {e : Expr}
    (htokens : tokenize source = .ok (ts ++ [mark])) (hmark : mark.kind = .endOfInput)
    (htext : mark.text = "") (h : Derives ts (.expr e)) : parse source = .ok e := by
  obtain ⟨rest, hdone⟩ := (program_eq_done_iff (kind_of_derives h) hmark htext).2 h
  rw [parse_of_tokens htokens, hdone]
  rfl

/-- A reader that has a value has read all tokens up to the end mark. -/
theorem parseWith_eq_ok {p : Production Expr} {source : String} {e : Expr}
    (h : parseWith p source = .ok e) : ∃ ts mark rest, tokenize source = .ok (ts ++ [mark]) ∧
      mark.kind = .endOfInput ∧ (∀ t ∈ ts, Lexer.Word t.kind t.text.toList) ∧
        p (ts ++ [mark]) = .done e rest ∧ (current rest).kind = .endOfInput := by
  cases htokens : tokenize source with
  | error err =>
    simp only [parseWith, htokens] at h
    cases h
  | ok tokens =>
    obtain ⟨ts, mark, rfl, hmark, -, hwords⟩ := Lexer.complete_of_tokensFrom htokens
    rw [parseWith_of_tokens p htokens] at h
    cases hdone : whole p (ts ++ [mark]) with
    | done e' rest =>
      rw [hdone] at h
      cases h
      exact ⟨ts, mark, rest, rfl, hmark, hwords, whole_eq_done.1 hdone⟩
    | stuck cause rest =>
      rw [hdone] at h
      cases h

theorem derives_of_parseWith {p : Production Expr} {phrase : Expr → Phrase} (hp : Sound p phrase)
    {source : String} {e : Expr} (h : parseWith p source = .ok e) :
    ∃ ts mark, tokenize source = .ok (ts ++ [mark]) ∧
      (∀ t ∈ ts, Lexer.Word t.kind t.text.toList) ∧ Derives ts (phrase e) := by
  obtain ⟨ts, mark, rest, htokens, hmark, hwords, hdone, hstop⟩ := parseWith_eq_ok h
  obtain ⟨used, heq, hderives⟩ := hp _ _ _ hdone
  have hkinds : ∀ t ∈ ts, t.kind ≠ .endOfInput := fun t ht => kind_of_word (hwords t ht)
  obtain rfl := split_at_mark hkinds hmark (kind_of_derives hderives) hstop heq
  exact ⟨used, mark, htokens, hwords, hderives⟩

theorem derives_of_parse {source : String} {e : Expr} (h : parse source = .ok e) :
    ∃ ts mark, tokenize source = .ok (ts ++ [mark]) ∧
      (∀ t ∈ ts, Lexer.Word t.kind t.text.toList) ∧ Derives ts (.expr e) :=
  derives_of_parseWith (fun ts => exprWithin_sound _ ts) h

/-- The reader accepts exactly the grammar and builds its trees. -/
theorem parse_iff_derives {source : String} {ts : List Token} {mark : Token}
    (h : tokenize source = .ok (ts ++ [mark])) :
    (∀ e, parse source = .ok e ↔ Derives ts (.expr e)) ∧
      (∀ us e e', Derives us (.expr e) → Derives us (.expr e') → e = e') ∧
      ((∃ err, parse source = .error err ∧ err.IsParseError) ↔ ¬ ∃ e, Derives ts (.expr e)) := by
  have haccept : ∀ e, parse source = .ok e ↔ Derives ts (.expr e) := by
    intro e
    obtain ⟨us, mark', heq, hmark, htext, hwords⟩ := Lexer.complete_of_tokensFrom h
    obtain ⟨rfl, hlast⟩ := List.append_inj' heq rfl
    obtain rfl := List.singleton_inj.1 hlast
    rw [parse_of_tokens h,
      ← program_eq_done_iff (fun t ht => kind_of_word (hwords t ht)) hmark htext]
    cases program (ts ++ [mark]) <;> simp [Parsed.toExcept]
  refine ⟨haccept, fun us e e' => derives_expr_unique, ?_⟩
  constructor
  · rintro ⟨err, herr, -⟩ ⟨e, he⟩
    rw [(haccept e).2 he] at herr
    cases herr
  · intro hnone
    rcases parse_eq_ok_or_report h with ⟨e, he⟩ | herr
    · exact absurd ⟨e, (haccept e).1 he⟩ hnone
    · exact herr

theorem parse_iff_derives_minus_two_times_x :
    parse "-2*x" = .ok (.binary .multiply (.number (-2.0)) (.name "x")) := by
  have htokens : tokenize "-2*x" = .ok ([⟨.symbol, "-", 1, 1⟩, ⟨.number, "2", 1, 2⟩,
      ⟨.symbol, "*", 1, 3⟩, ⟨.name, "x", 1, 4⟩] ++ [⟨.endOfInput, "", 1, 5⟩]) := by cbv
  have htwo : Number.ofNumeral? "2".toList = some 2.0 := by decide
  have hleft : Derives [⟨.symbol, "-", 1, 1⟩, ⟨.number, "2", 1, 2⟩]
      (.product (.number (-2.0))) := .product (.negative (by decide) rfl htwo)
  have hright : Derives [⟨.name, "x", 1, 4⟩] (.unary (.name "x")) := .unary (.name rfl)
  exact ((parse_iff_derives htokens).1 _).2
    (.expr (.sum (.multiplication hleft (by decide) (by decide) hright)))

end Grammar

end ArithCompiler

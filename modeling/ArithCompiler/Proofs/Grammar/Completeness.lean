import ArithCompiler.Proofs.Grammar.Derivation

set_option autoImplicit false

/-!
# What is derived is read

A production that starts at a derived list of tokens reads all of it, whatever follows, as long as
what follows cannot be taken for more of the same production. So reading as much as possible never
loses a derivation, and a list of tokens stands for one tree at most.
-/

namespace ArithCompiler.Grammar

/-! ## What may follow -/

/-- No call can begin with a name before this place. -/
def EndsUnary (rest : List Token) : Prop := (current rest).text ≠ "("

def EndsProduct (rest : List Token) : Prop :=
  EndsUnary rest ∧ productOperator? (current rest) = none

def EndsSum (rest : List Token) : Prop := EndsProduct rest ∧ sumOperator? (current rest) = none

theorem endsUnary_of_isSymbol {rest : List Token} {symbol : String}
    (h : (current rest).isSymbol symbol) (hs : symbol ≠ "(") : EndsUnary rest := by
  intro ht
  exact hs ((Token.isSymbol_iff.1 h).2.symm.trans ht)

theorem endsProduct_of_isSymbol {rest : List Token} {symbol : String}
    (h : (current rest).isSymbol symbol) (hs : symbol ≠ "(")
    (hop : ∀ op : Operator, op.level = 2 → op.symbol ≠ symbol) : EndsProduct rest := by
  refine ⟨endsUnary_of_isSymbol h hs, Option.eq_none_iff_forall_ne_some.2 ?_⟩
  intro op ho
  obtain ⟨hlevel, hsymbol⟩ := productOperator?_eq_some_iff.1 ho
  exact hop op hlevel ((Token.isSymbol_iff.1 hsymbol).2.symm.trans (Token.isSymbol_iff.1 h).2)

theorem endsSum_of_isSymbol {rest : List Token} {symbol : String}
    (h : (current rest).isSymbol symbol) (hs : symbol ≠ "(")
    (hop : ∀ op : Operator, op.symbol ≠ symbol) : EndsSum rest := by
  refine ⟨endsProduct_of_isSymbol h hs fun op _ => hop op, Option.eq_none_iff_forall_ne_some.2 ?_⟩
  intro op ho
  obtain ⟨-, hsymbol⟩ := sumOperator?_eq_some_iff.1 ho
  exact hop op ((Token.isSymbol_iff.1 hsymbol).2.symm.trans (Token.isSymbol_iff.1 h).2)

theorem endsSum_of_kind {rest : List Token} (h : (current rest).kind ≠ .symbol)
    (ht : EndsUnary rest) : EndsSum rest := by
  refine ⟨⟨ht, Option.eq_none_iff_forall_ne_some.2 ?_⟩, Option.eq_none_iff_forall_ne_some.2 ?_⟩
  · intro op ho
    exact h (Token.isSymbol_iff.1 (productOperator?_eq_some_iff.1 ho).2).1
  · intro op ho
    exact h (Token.isSymbol_iff.1 (sumOperator?_eq_some_iff.1 ho).2).1

/-! ## Steps -/

theorem advance_of_isSymbol {t : Token} {symbol : String} (h : t.isSymbol symbol)
    (ts : List Token) : advance (t :: ts) = ts :=
  advance_cons (by simp [(Token.isSymbol_iff.1 h).1]) ts

theorem expect_of_isSymbol {t : Token} {symbol : String} (h : t.isSymbol symbol)
    (ts : List Token) : expect symbol (t :: ts) = .done t ts := by
  simp [expect, h, advance_of_isSymbol h ts]

theorem literal_of_number {t : Token} {v : Float} (hk : t.kind = .number)
    (hv : Number.ofNumeral? t.text.toList = some v) (finish : Float → Float) (rest : List Token) :
    literal finish (t :: rest) = .done (.number (finish v)) rest := by
  simp [literal, hv, advance_cons, hk]

theorem chainFrom_end {operator? : Token → Option Operator} {rest : List Token}
    (h : operator? (current rest) = none) (operand : Production Expr) {m : Nat} (hm : 0 < m)
    (e : Expr) : chainFrom operator? operand m e rest = .done e rest := by
  obtain ⟨m, rfl⟩ := Nat.exists_eq_succ_of_ne_zero (Nat.ne_of_gt hm)
  simp [chainFrom, h]

/-- The chain has read `ts` as `e` and goes on at `rest`, for as many operators as there may be. -/
def Chains (operator? : Token → Option Operator) (operand : Production Expr) (ts : List Token)
    (e : Expr) (rest : List Token) : Prop :=
  ∃ m, rest.length < m ∧
    chain operator? operand (ts ++ rest) = chainFrom operator? operand m e rest

theorem chains_first {operator? : Token → Option Operator} {operand : Production Expr}
    {ts rest : List Token} {e : Expr} (h : operand (ts ++ rest) = .done e rest) :
    Chains operator? operand ts e rest :=
  ⟨rest.length + 1, by omega, by rw [chain, h]; rfl⟩

theorem chains_step {operator? : Token → Option Operator} {operand : Production Expr}
    {ts us rest : List Token} {t : Token} {op : Operator} {l r : Expr}
    (hl : Chains operator? operand ts l (t :: (us ++ rest))) (hop : operator? t = some op)
    (ht : t.isSymbol op.symbol) (hr : operand (us ++ rest) = .done r rest) :
    Chains operator? operand (ts ++ t :: us) (.binary op l r) rest := by
  obtain ⟨m, hm, heq⟩ := hl
  simp only [List.length_cons, List.length_append] at hm
  obtain ⟨m, rfl⟩ := Nat.exists_eq_succ_of_ne_zero (show m ≠ 0 by omega)
  refine ⟨m, by omega, ?_⟩
  rw [List.append_assoc, List.cons_append, heq, chainFrom]
  simp only [current_cons, hop, advance_of_isSymbol ht, hr, Parsed.bind]

theorem chains_end {operator? : Token → Option Operator} {operand : Production Expr}
    {ts rest : List Token} {e : Expr} (h : Chains operator? operand ts e rest)
    (hend : operator? (current rest) = none) :
    chain operator? operand (ts ++ rest) = .done e rest := by
  obtain ⟨m, hm, heq⟩ := h
  rw [heq, chainFrom_end hend operand (by omega)]

/-! ## Phrases -/

theorem exprWithin_succ (n : Nat) (ts : List Token) :
    exprWithin (n + 1) ts = sum (exprWithin n) ts := rfl

/-- How a phrase is read where nesting may go `n` deep. -/
def Reads (n : Nat) (ts : List Token) : Phrase → Prop
  | .expr e => ∀ rest, EndsSum rest → sum (exprWithin n) (ts ++ rest) = .done e rest
  | .sum e => ∀ rest, EndsProduct rest → Chains sumOperator? (product (exprWithin n)) ts e rest
  | .product e => ∀ rest, EndsUnary rest → Chains productOperator? (unary (exprWithin n)) ts e rest
  | .unary e => ∀ rest, EndsUnary rest → unary (exprWithin n) (ts ++ rest) = .done e rest
  | .primary e => ∀ rest, EndsUnary rest → primary (exprWithin n) (ts ++ rest) = .done e rest
  | .argList es => ∀ rest, (current rest).isSymbol ")" →
      argList (exprWithin (n + 1)) (ts ++ rest) = .done es rest
  | .exprs es => ∀ rest m, (current rest).isSymbol ")" → (ts ++ rest).length < m →
      listFrom (exprWithin (n + 1)) m (ts ++ rest) = .done es rest

theorem endsSum_of_closing {rest : List Token} (h : (current rest).isSymbol ")") : EndsSum rest :=
  endsSum_of_isSymbol h (by decide) fun op => by cases op <;> decide

theorem endsSum_of_comma {rest : List Token} (h : (current rest).isSymbol ",") : EndsSum rest :=
  endsSum_of_isSymbol h (by decide) fun op => by cases op <;> decide

theorem not_isSymbol_of_isSymbol {t : Token} {a b : String} (h : t.isSymbol a) (hab : a ≠ b) :
    t.isSymbol b = false := by
  rw [Bool.eq_false_iff]
  intro hb
  exact hab ((Token.isSymbol_iff.1 h).2.symm.trans (Token.isSymbol_iff.1 hb).2)

theorem not_isSymbol_of_kind {t : Token} {k : TokenKind} (h : t.kind = k) (hk : k ≠ .symbol)
    (symbol : String) : t.isSymbol symbol = false := by
  rw [Bool.eq_false_iff]
  intro hs
  exact hk (h.symm.trans (Token.isSymbol_iff.1 hs).1)

theorem unary_of_primary {ts : List Token} {e : Expr} (h : Derives ts (.primary e))
    (inner : Production Expr) (rest : List Token) :
    unary inner (ts ++ rest) = primary inner (ts ++ rest) := by
  cases h with
  | number hk | name hk | call hk =>
    simp [unary, not_isSymbol_of_kind hk (by decide) "-"]
  | group ho => simp [unary, not_isSymbol_of_isSymbol ho (show "(" ≠ "-" by decide)]

/-- An expression begins with a number, a name, a minus or an opening parenthesis. -/
theorem first_not_closing {ts : List Token} {p : Phrase} (h : Derives ts p) :
    match p with
    | .argList _ => True
    | _ => ∃ t us, ts = t :: us ∧ t.isSymbol ")" = false := by
  induction h with
  | expr _ ih | sum _ ih | product _ ih | unary _ ih | lastExpr _ ih => exact ih
  | addition _ _ _ _ ih | multiplication _ _ _ _ ih | moreExprs _ _ _ ih =>
    obtain ⟨t, us, rfl, ht⟩ := ih
    exact ⟨t, _, rfl, ht⟩
  | negative hm | negation hm =>
    exact ⟨_, _, rfl, not_isSymbol_of_isSymbol hm (by decide)⟩
  | number hk | name hk | call hk => exact ⟨_, _, rfl, not_isSymbol_of_kind hk (by decide) _⟩
  | group ho => exact ⟨_, _, rfl, not_isSymbol_of_isSymbol ho (by decide)⟩
  | noArguments | arguments => trivial

section Phrases

variable {n : Nat} {ts us : List Token} {t minus comma opening closing : Token} {op : Operator}
  {e l r : Expr} {es : List Expr} {v : Float}

theorem Reads.expr (h : Reads n ts (.sum e)) : Reads n ts (.expr e) :=
  fun rest hrest => chains_end (h rest hrest.1) hrest.2

theorem Reads.sum (h : Reads n ts (.product e)) : Reads n ts (.sum e) :=
  fun rest hrest => chains_first (chains_end (h rest hrest.1) hrest.2)

theorem Reads.addition (hl : Reads n ts (.sum l)) (hlevel : op.level = 1)
    (hsymbol : t.isSymbol op.symbol) (hr : Reads n us (.product r)) :
    Reads n (ts ++ t :: us) (.sum (.binary op l r)) := by
  intro rest hrest
  refine chains_step (hl _ ?_) (sumOperator?_eq_some_iff.2 ⟨hlevel, hsymbol⟩) hsymbol
    (chains_end (hr rest hrest.1) hrest.2)
  refine endsProduct_of_isSymbol hsymbol op.symbol_ne_opening ?_
  intro op' hop'
  cases op <;> cases op' <;> simp_all [Operator.level, Operator.symbol]

theorem Reads.product (h : Reads n ts (.unary e)) : Reads n ts (.product e) :=
  fun rest hrest => chains_first (h rest hrest)

theorem Reads.multiplication (hl : Reads n ts (.product l)) (hlevel : op.level = 2)
    (hsymbol : t.isSymbol op.symbol) (hr : Reads n us (.unary r)) :
    Reads n (ts ++ t :: us) (.product (.binary op l r)) := by
  intro rest hrest
  exact chains_step (hl _ (endsUnary_of_isSymbol hsymbol op.symbol_ne_opening))
    (productOperator?_eq_some_iff.2 ⟨hlevel, hsymbol⟩) hsymbol (hr rest hrest)

theorem Reads.unary (hderives : Derives ts (.primary e)) (h : Reads n ts (.primary e)) :
    Reads n ts (.unary e) := by
  intro rest hrest
  rw [unary_of_primary hderives]
  exact h rest hrest

theorem Reads.negative (hminus : minus.isSymbol "-") (hk : t.kind = .number)
    (hv : Number.ofNumeral? t.text.toList = some v) :
    Reads n [minus, t] (.unary (.number (-v))) := by
  intro rest _
  simp [Grammar.unary, hminus, hk, literal_of_number hk hv]

theorem Reads.negation (hminus : minus.isSymbol "-") (hk : t.kind ≠ .number)
    (h : Reads n (t :: us) (.unary e)) :
    Reads n (minus :: t :: us) (.unary (.binary .subtract (.number 0.0) e)) := by
  intro rest hrest
  rw [List.cons_append, List.cons_append, Grammar.unary, if_pos hminus, current_cons, if_neg hk,
    ← List.cons_append, h rest hrest]
  rfl

theorem Reads.number (hk : t.kind = .number) (hv : Number.ofNumeral? t.text.toList = some v) :
    Reads n [t] (.primary (.number v)) := by
  intro rest _
  simp [primary, hk, atom, literal_of_number hk hv]

theorem Reads.name (hk : t.kind = .name) : Reads n [t] (.primary (.name t.text)) := by
  intro rest hrest
  have hnext : ((current rest).text == "(") = false := by simpa [EndsUnary] using hrest
  simp [primary, hk, advance_cons, atom, hnext]

theorem Reads.call (hk : t.kind = .name) (ho : opening.isSymbol "(") (h : Reads n ts (.argList es))
    (hc : closing.isSymbol ")") :
    Reads (n + 1) (t :: opening :: (ts ++ [closing])) (.primary (.call t.text es)) := by
  intro rest _
  have hargs := h (closing :: rest) hc
  simp [primary, functionCall, hk, advance_cons, (Token.isSymbol_iff.1 ho).2,
    expect_of_isSymbol ho, hargs, Parsed.bind, expect_of_isSymbol hc, Parsed.map]

theorem Reads.group (ho : opening.isSymbol "(") (h : Reads n ts (.expr e))
    (hc : closing.isSymbol ")") : Reads (n + 1) (opening :: (ts ++ [closing])) (.primary e) := by
  intro rest _
  have hinner := h (closing :: rest) (endsSum_of_closing hc)
  simp [primary, parenthesized, (Token.isSymbol_iff.1 ho).1, ho, advance_of_isSymbol ho,
    exprWithin_succ, hinner, Parsed.bind, expect_of_isSymbol hc, Parsed.map]

theorem Reads.noArguments : Reads n [] (.argList []) := by
  intro rest hrest
  simp [argList, hrest]

theorem Reads.arguments (hderives : Derives ts (.exprs es)) (h : Reads n ts (.exprs es)) :
    Reads n ts (.argList es) := by
  intro rest hrest
  obtain ⟨t, us, rfl, ht⟩ := first_not_closing hderives
  rw [argList, if_neg (by simp [ht])]
  exact h rest _ hrest (by omega)

theorem Reads.lastExpr (h : Reads n ts (.expr e)) : Reads n ts (.exprs [e]) := by
  intro rest m hrest hm
  obtain ⟨m, rfl⟩ := Nat.exists_eq_succ_of_ne_zero (show m ≠ 0 by omega)
  simp [listFrom, exprWithin_succ, h rest (endsSum_of_closing hrest), Parsed.bind,
    not_isSymbol_of_isSymbol hrest (show ")" ≠ "," by decide)]

theorem Reads.moreExprs (he : Reads n ts (.expr e)) (hcomma : comma.isSymbol ",")
    (hes : Reads n us (.exprs es)) : Reads n (ts ++ comma :: us) (.exprs (e :: es)) := by
  intro rest m hrest hm
  simp only [List.length_append, List.length_cons] at hm
  obtain ⟨m, rfl⟩ := Nat.exists_eq_succ_of_ne_zero (show m ≠ 0 by omega)
  have hread := he (comma :: (us ++ rest)) (endsSum_of_comma hcomma)
  have hmore := hes rest m hrest (by rw [List.length_append]; omega)
  simp [listFrom, exprWithin_succ, hread, Parsed.bind, hcomma, advance_of_isSymbol hcomma,
    hmore, Parsed.map]

end Phrases

/-- Nesting goes no deeper than there are tokens. -/
theorem reads_of_derives {ts : List Token} {p : Phrase} (h : Derives ts p) :
    ∀ n, ts.length ≤ n → Reads n ts p := by
  induction h with
  | expr _ ih => exact fun n hn => (ih n hn).expr
  | sum _ ih => exact fun n hn => (ih n hn).sum
  | addition _ hlevel hsymbol _ ihl ihr =>
    intro n hn
    simp only [List.length_append, List.length_cons] at hn
    exact (ihl n (by omega)).addition hlevel hsymbol (ihr n (by omega))
  | product _ ih => exact fun n hn => (ih n hn).product
  | multiplication _ hlevel hsymbol _ ihl ihr =>
    intro n hn
    simp only [List.length_append, List.length_cons] at hn
    exact (ihl n (by omega)).multiplication hlevel hsymbol (ihr n (by omega))
  | unary h ih => exact fun n hn => (ih n hn).unary h
  | negative hminus hk hv => exact fun n _ => .negative hminus hk hv
  | negation hminus hk _ ih =>
    intro n hn
    exact .negation hminus hk (ih n (Nat.le_of_succ_le hn))
  | number hk hv => exact fun n _ => .number hk hv
  | name hk => exact fun n _ => .name hk
  | call hk ho _ hc ih =>
    intro n hn
    simp only [List.length_append, List.length_cons, List.length_nil] at hn
    obtain ⟨n, rfl⟩ := Nat.exists_eq_succ_of_ne_zero (show n ≠ 0 by omega)
    exact .call hk ho (ih n (by omega)) hc
  | group ho _ hc ih =>
    intro n hn
    simp only [List.length_append, List.length_cons, List.length_nil] at hn
    obtain ⟨n, rfl⟩ := Nat.exists_eq_succ_of_ne_zero (show n ≠ 0 by omega)
    exact .group ho (ih n (by omega)) hc
  | noArguments => exact fun n _ => .noArguments
  | arguments h ih => exact fun n hn => (ih n hn).arguments h
  | lastExpr _ ih => exact fun n hn => (ih n hn).lastExpr
  | moreExprs _ hcomma _ ihe ihes =>
    intro n hn
    simp only [List.length_append, List.length_cons] at hn
    exact (ihe n (by omega)).moreExprs hcomma (ihes n (by omega))

theorem expr_of_derives {ts : List Token} {e : Expr} (h : Derives ts (.expr e)) {rest : List Token}
    (hrest : EndsSum rest) : expr (ts ++ rest) = .done e rest :=
  reads_of_derives h _ (by simp) rest hrest

theorem derives_expr_unique {ts : List Token} {e e' : Expr} (h : Derives ts (.expr e))
    (h' : Derives ts (.expr e')) : e = e' := by
  have hnil : EndsSum [] := endsSum_of_kind (by decide) (by unfold EndsUnary; decide)
  have hread := (expr_of_derives h hnil).symm.trans (expr_of_derives h' hnil)
  cases hread
  rfl

end ArithCompiler.Grammar

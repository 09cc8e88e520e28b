import ArithCompiler.Tree.Grammar

set_option autoImplicit false

/-!
# Derivations

The grammar as a relation between lists of tokens and the trees they stand for, said without the
functions that read them. Sums and products group to the left, parentheses leave no trace, and a
minus is read with the number after it if there is one.
-/

namespace ArithCompiler.Grammar

/-- What a list of tokens may stand for: the tree of a production, or the trees of a list. -/
inductive Phrase where
  | expr (e : Expr)
  | sum (e : Expr)
  | product (e : Expr)
  | unary (e : Expr)
  | primary (e : Expr)
  | argList (es : List Expr)
  /-- The expressions of a list that is not empty. -/
  | exprs (es : List Expr)

inductive Derives : List Token → Phrase → Prop
  | expr {ts : List Token} {e : Expr} : Derives ts (.sum e) → Derives ts (.expr e)
  | sum {ts : List Token} {e : Expr} : Derives ts (.product e) → Derives ts (.sum e)
  | addition {ts us : List Token} {t : Token} {op : Operator} {l r : Expr} :
      Derives ts (.sum l) → op.level = 1 → t.isSymbol op.symbol → Derives us (.product r) →
      Derives (ts ++ t :: us) (.sum (.binary op l r))
  | product {ts : List Token} {e : Expr} : Derives ts (.unary e) → Derives ts (.product e)
  | multiplication {ts us : List Token} {t : Token} {op : Operator} {l r : Expr} :
      Derives ts (.product l) → op.level = 2 → t.isSymbol op.symbol → Derives us (.unary r) →
      Derives (ts ++ t :: us) (.product (.binary op l r))
  | unary {ts : List Token} {e : Expr} : Derives ts (.primary e) → Derives ts (.unary e)
  | negative {minus t : Token} {v : Float} :
      minus.isSymbol "-" → t.kind = .number → Number.ofNumeral? t.text.toList = some v →
      Derives [minus, t] (.unary (.number (-v)))
  | negation {minus t : Token} {us : List Token} {e : Expr} :
      minus.isSymbol "-" → t.kind ≠ .number → Derives (t :: us) (.unary e) →
      Derives (minus :: t :: us) (.unary (.binary .subtract (.number 0.0) e))
  | number {t : Token} {v : Float} :
      t.kind = .number → Number.ofNumeral? t.text.toList = some v →
      Derives [t] (.primary (.number v))
  | name {t : Token} : t.kind = .name → Derives [t] (.primary (.name t.text))
  | call {t opening closing : Token} {ts : List Token} {es : List Expr} :
      t.kind = .name → opening.isSymbol "(" → Derives ts (.argList es) → closing.isSymbol ")" →
      Derives (t :: opening :: (ts ++ [closing])) (.primary (.call t.text es))
  | group {opening closing : Token} {ts : List Token} {e : Expr} :
      opening.isSymbol "(" → Derives ts (.expr e) → closing.isSymbol ")" →
      Derives (opening :: (ts ++ [closing])) (.primary e)
  | noArguments : Derives [] (.argList [])
  | arguments {ts : List Token} {es : List Expr} : Derives ts (.exprs es) → Derives ts (.argList es)
  | lastExpr {ts : List Token} {e : Expr} : Derives ts (.expr e) → Derives ts (.exprs [e])
  | moreExprs {ts us : List Token} {comma : Token} {e : Expr} {es : List Expr} :
      Derives ts (.expr e) → comma.isSymbol "," → Derives us (.exprs es) →
      Derives (ts ++ comma :: us) (.exprs (e :: es))

/-! ## What is read is derived -/

def Sound {α : Type} (p : Production α) (phrase : α → Phrase) : Prop :=
  ∀ ts a rest, p ts = .done a rest → ∃ used, ts = used ++ rest ∧ Derives used (phrase a)

theorem expect_eq_done {symbol : String} {ts rest : List Token} {t : Token}
    (h : expect symbol ts = .done t rest) : t.isSymbol symbol ∧ ts = t :: rest := by
  unfold expect at h
  split at h
  · rename_i hs
    cases h
    exact ⟨hs, eq_cons_of_isSymbol hs⟩
  · cases h

theorem literal_eq_done {finish : Float → Float} {ts rest : List Token} {e : Expr}
    (h : literal finish ts = .done e rest) :
    ∃ v, Number.ofNumeral? (current ts).text.toList = some v ∧ e = .number (finish v) ∧
      rest = advance ts := by
  unfold literal at h
  split at h
  · rename_i v hv
    cases h
    exact ⟨v, hv, rfl, rfl⟩
  · cases h

theorem atom_sound : Sound atom .primary := by
  intro ts e rest h
  unfold atom at h
  split at h
  · rename_i hk
    obtain ⟨v, hv, rfl, rfl⟩ := literal_eq_done h
    exact ⟨[current ts], eq_cons_of_kind hk (by decide), .number hk hv⟩
  · rename_i hk
    cases h
    exact ⟨[current ts], eq_cons_of_kind hk (by decide), .name hk⟩
  · cases h

/-- The induction is on the number of operators that may follow; `front` stands for what has been
    read so far. -/
theorem chainFrom_sound {operator? : Token → Option Operator} {operand : Production Expr}
    {left right : Expr → Phrase} (hright : Sound operand right)
    (hop : ∀ {t op}, operator? t = some op → t.isSymbol op.symbol)
    (hstep : ∀ {ts us t op l r}, Derives ts (left l) → operator? t = some op →
      Derives us (right r) → Derives (ts ++ t :: us) (left (.binary op l r)))
    (n : Nat) (l e : Expr) (front ts rest : List Token) (hfront : Derives front (left l))
    (h : chainFrom operator? operand n l ts = .done e rest) :
    ∃ used, ts = used ++ rest ∧ Derives (front ++ used) (left e) := by
  induction n generalizing l front ts with
  | zero => cases h
  | succ n ih =>
    rw [chainFrom] at h
    split at h
    · cases h
      exact ⟨[], rfl, by simpa using hfront⟩
    · rename_i op ho
      obtain ⟨r, middle, hr, hmore⟩ := Parsed.bind_eq_done.1 h
      obtain ⟨us, hus, hderives⟩ := hright _ _ _ hr
      obtain ⟨vs, rfl, hvs⟩ := ih _ _ _ (hstep hfront ho hderives) hmore
      refine ⟨current ts :: us ++ vs, ?_, by simpa using hvs⟩
      rw [List.append_assoc, List.cons_append, ← hus]
      exact eq_cons_of_isSymbol (hop ho)

theorem chain_sound {operator? : Token → Option Operator} {operand : Production Expr}
    {left right : Expr → Phrase} (hright : Sound operand right)
    (hop : ∀ {t op}, operator? t = some op → t.isSymbol op.symbol)
    (hfirst : ∀ {ts e}, Derives ts (right e) → Derives ts (left e))
    (hstep : ∀ {ts us t op l r}, Derives ts (left l) → operator? t = some op →
      Derives us (right r) → Derives (ts ++ t :: us) (left (.binary op l r))) :
    Sound (chain operator? operand) left := by
  intro ts e rest h
  obtain ⟨l, middle, hl, hmore⟩ := Parsed.bind_eq_done.1 h
  obtain ⟨us, rfl, hus⟩ := hright _ _ _ hl
  obtain ⟨vs, rfl, hvs⟩ := chainFrom_sound hright hop hstep _ _ _ _ _ _ (hfirst hus) hmore
  exact ⟨us ++ vs, (List.append_assoc ..).symm, hvs⟩

section Nested

variable {inner : Production Expr}

theorem listFrom_sound (hinner : Sound inner .expr) (n : Nat) :
    Sound (listFrom inner n) .exprs := by
  intro ts es rest h
  induction n generalizing ts es with
  | zero => cases h
  | succ n ih =>
    obtain ⟨e, middle, he, hmore⟩ := Parsed.bind_eq_done.1 h
    obtain ⟨us, rfl, hus⟩ := hinner _ _ _ he
    split at hmore
    · rename_i hcomma
      obtain ⟨es', hes, rfl⟩ := Parsed.map_eq_done.1 hmore
      obtain ⟨vs, hvs, hderives⟩ := ih _ _ hes
      refine ⟨us ++ current middle :: vs, ?_, .moreExprs hus hcomma hderives⟩
      rw [List.append_assoc, List.cons_append, ← hvs, ← eq_cons_of_isSymbol hcomma]
    · cases hmore
      exact ⟨us, rfl, .lastExpr hus⟩

theorem argList_sound (hinner : Sound inner .expr) : Sound (argList inner) .argList := by
  intro ts es rest h
  unfold argList at h
  split at h
  · cases h
    exact ⟨[], rfl, .noArguments⟩
  · obtain ⟨used, rfl, hused⟩ := listFrom_sound hinner _ _ _ _ h
    exact ⟨used, rfl, .arguments hused⟩

theorem functionCall_sound (hinner : Sound inner .expr) : Sound (functionCall inner) .primary := by
  intro ts e rest h
  unfold functionCall at h
  split at h
  · rename_i hk
    obtain ⟨opening, opened, hopening, h⟩ := Parsed.bind_eq_done.1 h
    obtain ⟨es, closed, hes, h⟩ := Parsed.bind_eq_done.1 h
    obtain ⟨closing, hclosing, rfl⟩ := Parsed.map_eq_done.1 h
    obtain ⟨ho, hadvance⟩ := expect_eq_done hopening
    obtain ⟨hc, rfl⟩ := expect_eq_done hclosing
    obtain ⟨us, rfl, hus⟩ := argList_sound hinner _ _ _ hes
    refine ⟨current ts :: opening :: (us ++ [closing]), ?_, .call hk ho hus hc⟩
    rw [eq_cons_of_kind hk (by decide), hadvance]
    simp
  · cases h

theorem parenthesized_sound (hinner : Sound inner .expr) :
    Sound (parenthesized inner) .primary := by
  intro ts e rest h
  unfold parenthesized at h
  split at h
  · rename_i ho
    obtain ⟨e', closed, he, h⟩ := Parsed.bind_eq_done.1 h
    obtain ⟨closing, hclosing, rfl⟩ := Parsed.map_eq_done.1 h
    obtain ⟨hc, rfl⟩ := expect_eq_done hclosing
    obtain ⟨us, hus, hderives⟩ := hinner _ _ _ he
    refine ⟨current ts :: (us ++ [closing]), ?_, .group ho hderives hc⟩
    rw [eq_cons_of_isSymbol ho, hus]
    simp
  · cases h

theorem primary_sound (hinner : Sound inner .expr) : Sound (primary inner) .primary := by
  intro ts e rest h
  unfold primary at h
  split at h
  · exact atom_sound _ _ _ h
  · split at h
    · exact functionCall_sound hinner _ _ _ h
    · exact atom_sound _ _ _ h
  · exact parenthesized_sound hinner _ _ _ h

theorem derives_unary_ne_nil {ts : List Token} {e : Expr} (h : Derives ts (.unary e)) :
    ts ≠ [] := by
  cases h with
  | unary h => cases h <;> simp
  | negative | negation => simp

theorem unary_sound (hinner : Sound inner .expr) : Sound (unary inner) .unary := by
  intro ts e rest h
  induction ts generalizing e with
  | nil =>
    obtain ⟨used, hused, hderives⟩ := primary_sound hinner _ _ _ h
    exact ⟨used, hused, .unary hderives⟩
  | cons t us ih =>
    rw [unary] at h
    split at h
    · rename_i hminus
      split at h
      · rename_i hk
        obtain ⟨v, hv, rfl, rfl⟩ := literal_eq_done h
        refine ⟨[t, current us], ?_, .negative hminus hk hv⟩
        exact congrArg (t :: ·) (eq_cons_of_kind hk (by decide))
      · rename_i hk
        obtain ⟨e', he, rfl⟩ := Parsed.map_eq_done.1 h
        obtain ⟨used, rfl, hderives⟩ := ih _ he
        cases used with
        | nil => exact absurd rfl (derives_unary_ne_nil hderives)
        | cons u used => exact ⟨t :: u :: used, rfl, .negation hminus hk hderives⟩
    · obtain ⟨used, hused, hderives⟩ := primary_sound hinner _ _ _ h
      exact ⟨used, hused, .unary hderives⟩

theorem product_sound (hinner : Sound inner .expr) : Sound (product inner) .product := by
  refine chain_sound (unary_sound hinner) ?_ .product ?_
  · intro t op h
    exact (productOperator?_eq_some_iff.1 h).2
  · intro ts us t op l r hl hop hr
    obtain ⟨hlevel, hsymbol⟩ := productOperator?_eq_some_iff.1 hop
    exact .multiplication hl hlevel hsymbol hr

theorem sum_sound (hinner : Sound inner .expr) : Sound (sum inner) .sum := by
  refine chain_sound (product_sound hinner) ?_ .sum ?_
  · intro t op h
    exact (sumOperator?_eq_some_iff.1 h).2
  · intro ts us t op l r hl hop hr
    obtain ⟨hlevel, hsymbol⟩ := sumOperator?_eq_some_iff.1 hop
    exact .addition hl hlevel hsymbol hr

end Nested

theorem exprWithin_sound (n : Nat) : Sound (exprWithin n) .expr := by
  induction n with
  | zero =>
    intro ts e rest h
    cases h
  | succ n ih =>
    intro ts e rest h
    obtain ⟨used, hused, hderives⟩ := sum_sound ih _ _ _ h
    exact ⟨used, hused, .expr hderives⟩

end ArithCompiler.Grammar

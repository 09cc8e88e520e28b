import ArithCompiler.Tree.Grammar

set_option autoImplicit false

/-!
# Progress of the productions

A production leaves a final part of its tokens. If it has a value it has used some of them, an
argument list apart, and if it is stuck it says so for a reason that a reader of the text can see:
the bounds on repetition and nesting are never reached, and numbers that the lexer makes can be
read.
-/

namespace ArithCompiler

def GrammarCause.IsReport : GrammarCause → Prop
  | expectedSymbol _ | expectedExpression | expectedAtom | expectedFunctionName | expectedEnd => True
  | malformedNumber | nestedTooDeep | remark _ => False

namespace Grammar

def Readable (ts : List Token) : Prop :=
  ∀ t ∈ ts, t.kind = .number → ∃ v, Number.ofNumeral? t.text.toList = some v

theorem Readable.of_suffix {ts us : List Token} (h : Readable ts) (hs : us <:+ ts) : Readable us :=
  fun t ht => h t (hs.subset ht)

/-- An outcome from `ts` that has used at least `k` tokens if it is a value. -/
def Orderly {α : Type} (k : Nat) (ts : List Token) : Parsed α → Prop
  | .done _ rest => rest <:+ ts ∧ rest.length + k ≤ ts.length
  | .stuck cause rest => rest <:+ ts ∧ cause.IsReport

section Outcomes

variable {α β : Type} {k l : Nat} {ts us : List Token}

theorem Orderly.weaken {o : Parsed α} (h : Orderly k ts o) (hl : l ≤ k) : Orderly l ts o := by
  cases o with
  | done a rest => exact ⟨h.1, by have := h.2; omega⟩
  | stuck cause rest => exact h

theorem Orderly.after {o : Parsed α} (h : Orderly l us o) (hs : us <:+ ts)
    (hk : us.length + k ≤ ts.length) : Orderly (k + l) ts o := by
  cases o with
  | done a rest => exact ⟨h.1.trans hs, by have := h.2; omega⟩
  | stuck cause rest => exact ⟨h.1.trans hs, h.2⟩

theorem Orderly.bind {o : Parsed α} {next : α → List Token → Parsed β} (h : Orderly k ts o)
    (hnext : ∀ a rest, rest <:+ ts → rest.length + k ≤ ts.length → Orderly l rest (next a rest)) :
    Orderly (k + l) ts (o.bind next) := by
  cases o with
  | done a rest => exact (hnext a rest h.1 h.2).after h.1 h.2
  | stuck cause rest => exact h

theorem Orderly.map {o : Parsed α} (h : Orderly k ts o) (f : α → β) : Orderly k ts (o.map f) := by
  cases o <;> exact h

end Outcomes

theorem advance_suffix (ts : List Token) : advance ts <:+ ts := by
  cases ts with
  | nil => exact List.suffix_refl _
  | cons t rest =>
    by_cases h : t.kind = .endOfInput
    · exact ⟨[], if_pos h⟩
    · rw [advance_cons h]
      exact List.suffix_cons t rest

theorem length_advance {ts : List Token} {kind : TokenKind} (h : (current ts).kind = kind)
    (hk : kind ≠ .endOfInput) : (advance ts).length + 1 = ts.length := by
  conv => rhs; rw [eq_cons_of_kind h hk]
  rfl

theorem length_advance_of_isSymbol {ts : List Token} {symbol : String}
    (h : (current ts).isSymbol symbol) : (advance ts).length + 1 = ts.length :=
  length_advance (Token.isSymbol_iff.1 h).1 (by decide)

theorem expect_orderly (symbol : String) (ts : List Token) : Orderly 1 ts (expect symbol ts) := by
  unfold expect
  split
  · rename_i h
    exact ⟨advance_suffix ts, Nat.le_of_eq (length_advance_of_isSymbol h)⟩
  · exact ⟨List.suffix_refl _, trivial⟩

theorem expectEnd_orderly (ts : List Token) : Orderly 0 ts (expectEnd ts) := by
  unfold expectEnd
  split
  · exact ⟨List.suffix_refl _, Nat.le_refl _⟩
  · exact ⟨List.suffix_refl _, trivial⟩

theorem literal_orderly {ts : List Token} (hread : Readable ts) (hk : (current ts).kind = .number)
    (finish : Float → Float) : Orderly 1 ts (literal finish ts) := by
  have hmem : current ts ∈ ts := by
    rw [eq_cons_of_kind hk (by decide)]
    exact List.mem_cons_self
  obtain ⟨v, hv⟩ := hread _ hmem hk
  rw [literal, hv]
  exact ⟨advance_suffix ts, Nat.le_of_eq (length_advance hk (by decide))⟩

theorem atom_orderly {ts : List Token} (hread : Readable ts) : Orderly 1 ts (atom ts) := by
  unfold atom
  split
  · rename_i hk
    exact literal_orderly hread hk id
  · rename_i hk
    exact ⟨advance_suffix ts, Nat.le_of_eq (length_advance hk (by decide))⟩
  · exact ⟨List.suffix_refl _, trivial⟩

def OrderlyBelow (n : Nat) (p : Production Expr) : Prop :=
  ∀ ts, Readable ts → ts.length < n → Orderly 1 ts (p ts)

theorem chainFrom_orderly {operator? : Token → Option Operator} {operand : Production Expr}
    (hop : ∀ {t op}, operator? t = some op → t.isSymbol op.symbol) {bound : Nat}
    (hoperand : OrderlyBelow bound operand) (n : Nat) (l : Expr) (ts : List Token)
    (hread : Readable ts) (hb : ts.length < bound) (hn : ts.length < n) :
    Orderly 0 ts (chainFrom operator? operand n l ts) := by
  induction n generalizing l ts with
  | zero => omega
  | succ n ih =>
    rw [chainFrom]
    split
    · exact ⟨List.suffix_refl _, Nat.le_refl _⟩
    · rename_i op ho
      have hlen := length_advance_of_isSymbol (hop ho)
      have hsuffix := advance_suffix ts
      refine Orderly.weaken (k := 1) ?_ (Nat.zero_le _)
      refine Orderly.after (l := 1) (k := 0) ?_ hsuffix (by omega)
      refine (hoperand _ (hread.of_suffix hsuffix) (by omega)).bind (l := 0) ?_
      intro r rest hrest hused
      exact ih _ _ ((hread.of_suffix hsuffix).of_suffix hrest) (by omega) (by omega)

theorem chain_orderly {operator? : Token → Option Operator} {operand : Production Expr}
    (hop : ∀ {t op}, operator? t = some op → t.isSymbol op.symbol) {bound : Nat}
    (hoperand : OrderlyBelow bound operand) : OrderlyBelow bound (chain operator? operand) := by
  intro ts hread hb
  refine (hoperand ts hread hb).bind (l := 0) ?_
  intro l rest hrest hused
  exact chainFrom_orderly hop hoperand _ _ _ (hread.of_suffix hrest) (by omega) (by omega)

section Nested

variable {inner : Production Expr} {n : Nat}

theorem listFrom_orderly (hinner : OrderlyBelow n inner) (m : Nat) (ts : List Token)
    (hread : Readable ts) (hn : ts.length < n) (hm : ts.length < m) :
    Orderly 1 ts (listFrom inner m ts) := by
  induction m generalizing ts with
  | zero => omega
  | succ m ih =>
    refine (hinner ts hread hn).bind (l := 0) ?_
    intro e rest hrest hused
    split
    · rename_i hcomma
      have hlen := length_advance_of_isSymbol hcomma
      have hsuffix := advance_suffix rest
      have hmore := ih (advance rest) ((hread.of_suffix hrest).of_suffix hsuffix) (by omega)
        (by omega)
      exact ((hmore.map _).after (k := 0) hsuffix (by omega)).weaken (Nat.zero_le _)
    · exact ⟨List.suffix_refl _, Nat.le_refl _⟩

theorem argList_orderly (hinner : OrderlyBelow n inner) (ts : List Token) (hread : Readable ts)
    (hn : ts.length < n) : Orderly 0 ts (argList inner ts) := by
  unfold argList
  split
  · exact ⟨List.suffix_refl _, Nat.le_refl _⟩
  · exact (listFrom_orderly hinner _ ts hread hn (by omega)).weaken (Nat.zero_le _)

/-- The nested expressions of a call come after its name and parenthesis, so `inner` need not be
    relied on for the whole list. -/
theorem functionCall_orderly (hinner : OrderlyBelow n inner) :
    OrderlyBelow (n + 1) (functionCall inner) := by
  intro ts hread hn
  unfold functionCall
  split
  · rename_i hk
    have hlen := length_advance hk (by decide)
    have hsuffix := advance_suffix ts
    refine Orderly.weaken (k := 1 + 1) ?_ (by omega)
    refine Orderly.after ?_ hsuffix (by omega)
    refine (expect_orderly "(" _).bind (l := 0) ?_
    intro opening opened hopened hused
    have hread' := (hread.of_suffix hsuffix).of_suffix hopened
    refine (argList_orderly hinner opened hread' (by omega)).bind (l := 0) ?_
    intro es closed _ _
    exact ((expect_orderly ")" closed).map _).weaken (Nat.zero_le _)
  · exact ⟨List.suffix_refl _, trivial⟩

theorem parenthesized_orderly (hinner : OrderlyBelow n inner) :
    OrderlyBelow (n + 1) (parenthesized inner) := by
  intro ts hread hn
  unfold parenthesized
  split
  · rename_i ho
    have hlen := length_advance_of_isSymbol ho
    have hsuffix := advance_suffix ts
    refine Orderly.weaken (k := 1 + 1) ?_ (by omega)
    refine Orderly.after ?_ hsuffix (by omega)
    refine (hinner _ (hread.of_suffix hsuffix) (by omega)).bind (l := 0) ?_
    intro e closed _ _
    exact ((expect_orderly ")" closed).map _).weaken (Nat.zero_le _)
  · exact ⟨List.suffix_refl _, trivial⟩

theorem primary_orderly (hinner : OrderlyBelow n inner) : OrderlyBelow (n + 1) (primary inner) := by
  intro ts hread hn
  unfold primary
  split
  · exact atom_orderly hread
  · split
    · exact functionCall_orderly hinner ts hread hn
    · exact atom_orderly hread
  · exact parenthesized_orderly hinner ts hread hn

theorem unary_orderly (hinner : OrderlyBelow n inner) : OrderlyBelow (n + 1) (unary inner) := by
  intro ts hread hn
  induction ts with
  | nil => exact primary_orderly hinner [] hread hn
  | cons t us ih =>
    have hsuffix : us <:+ t :: us := List.suffix_cons t us
    have hread' := hread.of_suffix hsuffix
    rw [unary]
    split
    · split
      · rename_i hk
        exact ((literal_orderly hread' hk _).after (k := 1) hsuffix (by simp)).weaken (by omega)
      · have hmore := ih hread' (by simp only [List.length_cons] at hn; omega)
        exact ((hmore.map _).after (k := 1) hsuffix (by simp)).weaken (by omega)
    · exact primary_orderly hinner (t :: us) hread hn

theorem product_orderly (hinner : OrderlyBelow n inner) : OrderlyBelow (n + 1) (product inner) :=
  chain_orderly (fun h => (productOperator?_eq_some_iff.1 h).2) (unary_orderly hinner)

theorem sum_orderly (hinner : OrderlyBelow n inner) : OrderlyBelow (n + 1) (sum inner) :=
  chain_orderly (fun h => (sumOperator?_eq_some_iff.1 h).2) (product_orderly hinner)

end Nested

theorem exprWithin_orderly (n : Nat) : OrderlyBelow n (exprWithin n) := by
  induction n with
  | zero =>
    intro ts _ hn
    omega
  | succ n ih => exact sum_orderly ih

theorem expr_orderly {ts : List Token} (hread : Readable ts) : Orderly 1 ts (expr ts) :=
  exprWithin_orderly _ ts hread (Nat.lt_succ_self _)

end Grammar

end ArithCompiler

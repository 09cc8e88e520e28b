import ArithCompiler.Proofs.Grammar.Totality
import ArithCompiler.Proofs.Lexer.Segmentation

set_option autoImplicit false

/-!
# The reader does not look at places

A production does the same with tokens whose places are taken away: it has the same value or is stuck
for the same reason, and leaves as many tokens. So lists of tokens with the same kinds and texts are
read alike, wherever the tokens stand.
-/

namespace ArithCompiler

namespace Token

def unplaced (t : Token) : Token := { t with line := 0, col := 0 }

@[simp] theorem unplaced_kind (t : Token) : t.unplaced.kind = t.kind := rfl

@[simp] theorem unplaced_text (t : Token) : t.unplaced.text = t.text := rfl

@[simp] theorem unplaced_isSymbol (t : Token) (symbol : String) :
    t.unplaced.isSymbol symbol = t.isSymbol symbol := rfl

@[simp] theorem unplaced_describe (t : Token) : t.unplaced.describe = t.describe := rfl

end Token

theorem GrammarCause.text_unplaced (cause : GrammarCause) (t : Token) :
    cause.text t.unplaced = cause.text t := by
  cases cause <;> rfl

namespace Parsed

variable {α β : Type}

def unplaced : Parsed α → Parsed α
  | done value rest => done value (rest.map Token.unplaced)
  | stuck cause rest => stuck cause (rest.map Token.unplaced)

theorem unplaced_bind (o : Parsed α) {next next' : α → List Token → Parsed β}
    (hnext : ∀ a rest, next' a (rest.map Token.unplaced) = (next a rest).unplaced) :
    o.unplaced.bind next' = (o.bind next).unplaced := by
  cases o with
  | done a rest => exact hnext a rest
  | stuck cause rest => rfl

/-- Outcomes that agree but for places are both done or both stuck. -/
theorem eq_of_unplaced {o o' : Parsed α} (h : o'.unplaced = o.unplaced) :
    (∃ a rest rest', o = done a rest ∧ o' = done a rest') ∨
      ∃ cause rest rest', o = stuck cause rest ∧ o' = stuck cause rest' ∧
        rest'.map Token.unplaced = rest.map Token.unplaced := by
  cases o with
  | done a rest =>
    cases o' with
    | done a' rest' =>
      obtain ⟨rfl, -⟩ := Parsed.done.inj h
      exact .inl ⟨_, rest, rest', rfl, rfl⟩
    | stuck => cases h
  | stuck cause rest =>
    cases o' with
    | done => cases h
    | stuck cause' rest' =>
      obtain ⟨rfl, hrest⟩ := Parsed.stuck.inj h
      exact .inr ⟨_, rest, rest', rfl, rfl, hrest⟩

theorem unplaced_map (o : Parsed α) (f : α → β) : o.unplaced.map f = (o.map f).unplaced := by
  cases o <;> rfl

end Parsed

namespace Grammar

@[simp] theorem current_unplaced (ts : List Token) :
    current (ts.map Token.unplaced) = (current ts).unplaced := by
  cases ts <;> rfl

@[simp] theorem advance_unplaced (ts : List Token) :
    advance (ts.map Token.unplaced) = (advance ts).map Token.unplaced := by
  cases ts with
  | nil => rfl
  | cons t ts => by_cases h : t.kind = .endOfInput <;> simp [advance, h]

def Unmoved {α : Type} (p : Production α) : Prop :=
  ∀ ts, p (ts.map Token.unplaced) = (p ts).unplaced

/-- The token that is expected is not used, only the tokens after it are. -/
theorem expect_unmoved {β : Type} {symbol : String} {next : List Token → Parsed β}
    (hnext : Unmoved next) : Unmoved fun ts => (expect symbol ts).bind fun _ => next := by
  intro ts
  by_cases h : (current ts).isSymbol symbol
  · simpa [expect, h, Parsed.bind] using hnext _
  · simp [expect, h, Parsed.bind, Parsed.unplaced]

theorem expectEnd_unmoved : Unmoved expectEnd := by
  intro ts
  by_cases h : (current ts).kind = .endOfInput <;> simp [expectEnd, h, Parsed.unplaced]

theorem literal_unmoved (finish : Float → Float) : Unmoved (literal finish) := by
  intro ts
  cases h : Number.ofNumeral? (current ts).text.toList <;> simp [literal, h, Parsed.unplaced]

theorem atom_unmoved : Unmoved atom := by
  intro ts
  cases h : (current ts).kind with
  | number => simpa [atom, h] using literal_unmoved id ts
  | name | symbol | endOfInput => simp [atom, h, Parsed.unplaced]

theorem chainFrom_unmoved {operator? : Token → Option Operator} {operand : Production Expr}
    (hop : ∀ t : Token, operator? t.unplaced = operator? t) (hoperand : Unmoved operand) (n : Nat)
    (l : Expr) : Unmoved (chainFrom operator? operand n l) := by
  induction n generalizing l with
  | zero => exact fun ts => rfl
  | succ n ih =>
    intro ts
    rw [chainFrom, chainFrom, current_unplaced, hop, advance_unplaced]
    cases operator? (current ts) with
    | none => rfl
    | some op =>
      dsimp only
      rw [hoperand]
      exact Parsed.unplaced_bind _ fun r rest => ih (.binary op l r) rest

theorem chain_unmoved {operator? : Token → Option Operator} {operand : Production Expr}
    (hop : ∀ t : Token, operator? t.unplaced = operator? t) (hoperand : Unmoved operand) :
    Unmoved (chain operator? operand) := by
  intro ts
  rw [chain, chain, hoperand]
  refine Parsed.unplaced_bind _ fun l rest => ?_
  rw [List.length_map]
  exact chainFrom_unmoved hop hoperand _ l rest

section Nested

variable {inner : Production Expr}

theorem listFrom_unmoved (hinner : Unmoved inner) (n : Nat) : Unmoved (listFrom inner n) := by
  induction n with
  | zero => exact fun ts => rfl
  | succ n ih =>
    intro ts
    rw [listFrom, listFrom, hinner]
    refine Parsed.unplaced_bind _ fun e rest => ?_
    by_cases h : (current rest).isSymbol ","
    · simp [h, ih _, Parsed.unplaced_map]
    · simp [h, Parsed.unplaced]

theorem argList_unmoved (hinner : Unmoved inner) : Unmoved (argList inner) := by
  intro ts
  by_cases h : (current ts).isSymbol ")"
  · simp [argList, h, Parsed.unplaced]
  · simpa [argList, h] using listFrom_unmoved hinner _ ts

theorem closing_unmoved {α β : Type} {p : Production α} (hp : Unmoved p) (f : α → β) :
    Unmoved fun ts => (p ts).bind fun a closing => (expect ")" closing).map fun _ => f a := by
  intro ts
  dsimp only
  rw [hp]
  refine Parsed.unplaced_bind _ fun a rest => ?_
  by_cases h : (current rest).isSymbol ")" <;> simp [expect, h, Parsed.map, Parsed.unplaced]

theorem callRest_unmoved (hinner : Unmoved inner) (function : String) :
    Unmoved (callRest inner function) :=
  expect_unmoved (closing_unmoved (argList_unmoved hinner) (Tree.call function))

theorem functionCall_unmoved (hinner : Unmoved inner) : Unmoved (functionCall inner) := by
  intro ts
  by_cases h : (current ts).kind = .name
  · simpa [functionCall, callRest, h] using callRest_unmoved hinner (current ts).text (advance ts)
  · simp [functionCall, h, Parsed.unplaced]

theorem parenthesized_unmoved (hinner : Unmoved inner) : Unmoved (parenthesized inner) := by
  intro ts
  by_cases h : (current ts).isSymbol "("
  · simpa [parenthesized, h] using closing_unmoved hinner id (advance ts)
  · simp [parenthesized, h, Parsed.unplaced]

theorem primary_unmoved (hinner : Unmoved inner) : Unmoved (primary inner) := by
  intro ts
  cases h : (current ts).kind with
  | number => simpa [primary, h] using atom_unmoved ts
  | name =>
    by_cases hopen : (current (advance ts)).text = "("
    · simpa [primary, h, hopen] using functionCall_unmoved hinner ts
    · simpa [primary, h, hopen] using atom_unmoved ts
  | symbol | endOfInput => simpa [primary, h] using parenthesized_unmoved hinner ts

theorem unary_unmoved (hinner : Unmoved inner) : Unmoved (unary inner) := by
  intro ts
  induction ts with
  | nil => exact primary_unmoved hinner []
  | cons t ts ih =>
    rw [List.map_cons, unary, unary, Token.unplaced_isSymbol]
    by_cases hminus : t.isSymbol "-"
    · by_cases h : (current ts).kind = .number
      · simpa [hminus, h] using literal_unmoved (-·) ts
      · simp [hminus, h, ih, Parsed.unplaced_map]
    · simpa [hminus] using primary_unmoved hinner (t :: ts)

theorem sum_unmoved (hinner : Unmoved inner) : Unmoved (sum inner) :=
  chain_unmoved (fun _ => rfl) (chain_unmoved (fun _ => rfl) (unary_unmoved hinner))

end Nested

theorem exprWithin_unmoved (n : Nat) : Unmoved (exprWithin n) := by
  induction n with
  | zero => exact fun ts => rfl
  | succ n ih => exact sum_unmoved ih

theorem expr_unmoved : Unmoved expr := by
  intro ts
  rw [expr, expr, List.length_map]
  exact exprWithin_unmoved _ ts

theorem program_unmoved : Unmoved program := by
  intro ts
  change (expr (ts.map Token.unplaced)).bind _ = _
  rw [expr_unmoved]
  refine Parsed.unplaced_bind _ fun e rest => ?_
  rw [expectEnd_unmoved, Parsed.unplaced_map]

/-! ## Tokens that differ in their places only -/

theorem map_unplaced_of_values {ts us : List Token} (h : Lexer.values us = Lexer.values ts) :
    us.map Token.unplaced = ts.map Token.unplaced := by
  let place : TokenKind × List Char → Token := fun v => ⟨v.1, String.ofList v.2, 0, 0⟩
  have hplace : ∀ vs : List Token, vs.map Token.unplaced = (Lexer.values vs).map place := by
    intro vs
    rw [Lexer.values, List.map_map]
    exact List.map_congr_left fun t _ => by simp [Token.unplaced, place]
  rw [hplace, hplace, h]

/-- The text has tokens, and reading them as an expression stops at the one of this index, with this
    text as its message. -/
def FailsAt (source : String) (index : Nat) (text : String) : Prop :=
  ∃ tokens t cause, tokenize source = .ok tokens ∧ tokens[index]? = some t ∧
    ((Cursor.ofTokens tokens).run program).2.pos = index ∧
    parse source = .error (.grammatical cause t) ∧ cause.text t = text

section Alike

variable {source source' : String} {tokens tokens' : List Token}

theorem failsAt_of_stuck (h : tokenize source = .ok tokens) {cause : GrammarCause}
    {rest : List Token} (hstuck : program tokens = .stuck cause rest) :
    FailsAt source (tokens.length - rest.length) (cause.text (current rest)) := by
  have hparse : parse source = .error (.grammatical cause (current rest)) := by
    rw [parse_of_tokens h, hstuck]
    rfl
  have hrun : (Cursor.mk tokens 0).run program =
      (.error (.grammatical cause (current rest)), ⟨tokens, tokens.length - rest.length⟩) := by
    simp only [Cursor.run, Cursor.remaining, List.drop_zero, hstuck]
    rfl
  have hne : 0 < tokens.length := by
    obtain ⟨ts, mark, rfl, -⟩ := marked_of_tokens h
    simp
  have hrange := runsInRange (readable_of_tokens h) (marked_of_tokens h) .program hne
  obtain ⟨-, _, t, heq, ht⟩ := hrange.report _ (congrArg Prod.fst hrun)
  obtain ⟨rfl, rfl⟩ := SourceError.grammatical.inj heq
  rw [hrun] at ht
  exact ⟨tokens, _, cause, h, ht, congrArg (·.2.pos) hrun, hparse, rfl⟩

/-- Texts whose tokens differ in their places only are read alike. -/
theorem parse_of_unplaced (h : tokenize source = .ok tokens) (h' : tokenize source' = .ok tokens')
    (hsame : tokens'.map Token.unplaced = tokens.map Token.unplaced) :
    (∀ e, parse source' = .ok e ↔ parse source = .ok e) ∧
      ∀ err, parse source = .error err →
        ∃ i, FailsAt source i err.text ∧ FailsAt source' i err.text := by
  have hprogram : (program tokens').unplaced = (program tokens).unplaced := by
    rw [← program_unmoved, ← program_unmoved, hsame]
  rcases Parsed.eq_of_unplaced hprogram with
    ⟨a, rest, rest', hdone, hdone'⟩ | ⟨cause, rest, rest', hstuck, hstuck', hrest⟩
  · rw [parse_of_tokens h, parse_of_tokens h', hdone, hdone']
    exact ⟨fun e => Iff.rfl, nofun⟩
  · have hfails := failsAt_of_stuck h hstuck
    have hfails' := failsAt_of_stuck h' hstuck'
    have hlength : tokens'.length - rest'.length = tokens.length - rest.length := by
      have htokens := congrArg List.length hsame
      have hleft := congrArg List.length hrest
      simp only [List.length_map] at htokens hleft
      rw [htokens, hleft]
    have htext : cause.text (current rest') = cause.text (current rest) := by
      rw [← cause.text_unplaced, ← current_unplaced, hrest, current_unplaced, cause.text_unplaced]
    rw [hlength, htext] at hfails'
    rw [parse_of_tokens h, parse_of_tokens h', hstuck, hstuck']
    refine ⟨fun e => by simp [Parsed.toExcept], fun err herr => ?_⟩
    cases herr
    exact ⟨_, hfails, hfails'⟩

end Alike

end Grammar
end ArithCompiler

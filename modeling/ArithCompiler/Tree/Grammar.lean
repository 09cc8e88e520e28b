import ArithCompiler.Token.Lexer
import ArithCompiler.Tree.Basic

set_option autoImplicit false

/-!
# From tokens to trees

    Expr    = Sum
    Sum     = Product (('+' | '-') Product)*
    Product = Unary (('*' | '/') Unary)*
    Unary   = '-' Unary | Primary
    Primary = NUMBER | NAME '(' ArgList ')' | NAME | '(' Expr ')'
    ArgList = (Expr (',' Expr)*)?

A minus before a number makes the number negative; before anything else it subtracts from zero. Each
production takes the tokens from its place on and leaves those it has not used, also when it is
stuck: then the first of them is the token that does not fit.

A production is given the one for nested expressions. Tied together they recurse on the depth of
nesting, which the number of tokens bounds.
-/

namespace ArithCompiler

inductive Parsed (α : Type) where
  | done (value : α) (rest : List Token)
  | stuck (cause : GrammarCause) (rest : List Token)

namespace Parsed

variable {α β : Type}

def bind : Parsed α → (α → List Token → Parsed β) → Parsed β
  | done value rest, next => next value rest
  | stuck cause rest, _ => stuck cause rest

def map (f : α → β) : Parsed α → Parsed β
  | done value rest => done (f value) rest
  | stuck cause rest => stuck cause rest

def rest : Parsed α → List Token
  | done _ rest => rest
  | stuck _ rest => rest

theorem bind_eq_done {o : Parsed α} {next : α → List Token → Parsed β} {b : β}
    {rest : List Token} :
    o.bind next = done b rest ↔ ∃ a middle, o = done a middle ∧ next a middle = done b rest := by
  cases o with
  | done a middle =>
    constructor
    · exact fun h => ⟨a, middle, rfl, h⟩
    · rintro ⟨_, _, ⟨⟩, h⟩
      exact h
  | stuck cause middle => simp [bind]

theorem bind_eq_stuck {o : Parsed α} {next : α → List Token → Parsed β} {cause : GrammarCause}
    {rest : List Token} : o.bind next = stuck cause rest ↔
      o = stuck cause rest ∨ ∃ a middle, o = done a middle ∧ next a middle = stuck cause rest := by
  cases o with
  | done a middle =>
    constructor
    · exact fun h => .inr ⟨a, middle, rfl, h⟩
    · rintro (h | ⟨_, _, ⟨⟩, h⟩)
      · cases h
      · exact h
  | stuck cause' middle => simp [bind]

theorem map_eq_done {o : Parsed α} {f : α → β} {b : β} {rest : List Token} :
    o.map f = done b rest ↔ ∃ a, o = done a rest ∧ f a = b := by
  cases o with
  | done a middle =>
    constructor
    · rintro ⟨⟩
      exact ⟨a, rfl, rfl⟩
    · rintro ⟨_, ⟨⟩, rfl⟩
      rfl
  | stuck cause middle => simp [map]

theorem map_eq_stuck {o : Parsed α} {f : α → β} {cause : GrammarCause} {rest : List Token} :
    o.map f = stuck cause rest ↔ o = stuck cause rest := by
  cases o <;> simp [map]

end Parsed

namespace Grammar

abbrev Production (α : Type) := List Token → Parsed α

def current : List Token → Token
  | t :: _ => t
  | [] => ⟨.endOfInput, "", 0, 0⟩

@[simp] theorem current_cons (t : Token) (ts : List Token) : current (t :: ts) = t := rfl

/-- Goes past a token; the end mark stays. -/
def advance : List Token → List Token
  | t :: rest => if t.kind = .endOfInput then t :: rest else rest
  | [] => []

theorem advance_cons {t : Token} (h : t.kind ≠ .endOfInput) (ts : List Token) :
    advance (t :: ts) = ts := if_neg h

theorem eq_cons_of_kind {ts : List Token} {k : TokenKind} (h : (current ts).kind = k)
    (hk : k ≠ .endOfInput) : ts = current ts :: advance ts := by
  cases ts with
  | nil => exact absurd h.symm hk
  | cons t rest =>
    have ht : t.kind ≠ .endOfInput := fun he => hk (h.symm.trans he)
    rw [current_cons, advance_cons ht]

theorem eq_cons_of_isSymbol {ts : List Token} {symbol : String}
    (h : (current ts).isSymbol symbol) : ts = current ts :: advance ts :=
  eq_cons_of_kind (Token.isSymbol_iff.1 h).1 (by decide)

def expect (symbol : String) : Production Token := fun ts =>
  if (current ts).isSymbol symbol then .done (current ts) (advance ts)
  else .stuck (.expectedSymbol symbol) ts

def expectEnd : Production Unit := fun ts =>
  if (current ts).kind = .endOfInput then .done () ts else .stuck .expectedEnd ts

def literal (finish : Float → Float) : Production Expr := fun ts =>
  match Number.ofNumeral? (current ts).text.toList with
  | some v => .done (.number (finish v)) (advance ts)
  | none => .stuck .malformedNumber (advance ts)

def atom : Production Expr := fun ts =>
  match (current ts).kind with
  | .number => literal id ts
  | .name => .done (.name (current ts).text) (advance ts)
  | _ => .stuck .expectedAtom ts

def sumOperator? (t : Token) : Option Operator :=
  if t.isSymbol "+" then some .add else if t.isSymbol "-" then some .subtract else none

def productOperator? (t : Token) : Option Operator :=
  if t.isSymbol "*" then some .multiply else if t.isSymbol "/" then some .divide else none

theorem sumOperator?_eq_some_iff {t : Token} {op : Operator} :
    sumOperator? t = some op ↔ op.level = 1 ∧ t.isSymbol op.symbol := by
  cases op <;> simp [sumOperator?, Token.isSymbol_iff, Operator.level, Operator.symbol] <;> grind

theorem productOperator?_eq_some_iff {t : Token} {op : Operator} :
    productOperator? t = some op ↔ op.level = 2 ∧ t.isSymbol op.symbol := by
  cases op <;> simp [productOperator?, Token.isSymbol_iff, Operator.level, Operator.symbol] <;>
    grind

/-- Goes on with operators and operands, at most `n` of them. -/
def chainFrom (operator? : Token → Option Operator) (operand : Production Expr) :
    Nat → Expr → Production Expr
  | 0, _, ts => .stuck .nestedTooDeep ts
  | n + 1, left, ts =>
    match operator? (current ts) with
    | none => .done left ts
    | some op =>
      (operand (advance ts)).bind fun right rest =>
        chainFrom operator? operand n (.binary op left right) rest

/-- Operands with operators between them, grouped to the left. -/
def chain (operator? : Token → Option Operator) (operand : Production Expr) : Production Expr :=
  fun ts => (operand ts).bind fun left rest =>
    chainFrom operator? operand (rest.length + 1) left rest

section Nested

variable (inner : Production Expr)

/-- At most `n` expressions with commas between them. -/
def listFrom : Nat → Production (List Expr)
  | 0, ts => .stuck .nestedTooDeep ts
  | n + 1, ts =>
    (inner ts).bind fun e rest =>
      if (current rest).isSymbol "," then (listFrom n (advance rest)).map (e :: ·)
      else .done [e] rest

def argList : Production (List Expr) := fun ts =>
  if (current ts).isSymbol ")" then .done [] ts else listFrom inner (ts.length + 1) ts

def functionCall : Production Expr := fun ts =>
  if (current ts).kind = .name then
    (expect "(" (advance ts)).bind fun _ opened =>
      (argList inner opened).bind fun args closing =>
        (expect ")" closing).map fun _ => .call (current ts).text args
  else .stuck .expectedFunctionName ts

def parenthesized : Production Expr := fun ts =>
  if (current ts).isSymbol "(" then
    (inner (advance ts)).bind fun e closing => (expect ")" closing).map fun _ => e
  else .stuck .expectedExpression ts

def primary : Production Expr := fun ts =>
  match (current ts).kind with
  | .number => atom ts
  | .name => if (current (advance ts)).text == "(" then functionCall inner ts else atom ts
  | _ => parenthesized inner ts

def unary : Production Expr
  | [] => primary inner []
  | t :: rest =>
    if t.isSymbol "-" then
      if (current rest).kind = .number then literal (-·) rest
      else (unary rest).map (.binary .subtract (.number 0.0))
    else primary inner (t :: rest)

def product : Production Expr := chain productOperator? (unary inner)

def sum : Production Expr := chain sumOperator? (product inner)

end Nested

/-- An expression nested less than `n` deep. -/
def exprWithin : Nat → Production Expr
  | 0, ts => .stuck .nestedTooDeep ts
  | n + 1, ts => sum (exprWithin n) ts

def expr : Production Expr := fun ts => exprWithin (ts.length + 1) ts

/-- A production and nothing after it. -/
def whole (p : Production Expr) : Production Expr := fun ts =>
  (p ts).bind fun e rest => (expectEnd rest).map fun _ => e

def program : Production Expr := whole expr

end Grammar

/-- The value, or the error at the token where the production is stuck. -/
def Parsed.toExcept {α : Type} : Parsed α → Except SourceError α
  | done value _ => .ok value
  | stuck cause rest => .error (.grammatical cause (Grammar.current rest))

def parseWith (p : Grammar.Production Expr) (source : String) : Except SourceError Expr := do
  let tokens ← tokenize source
  (Grammar.whole p tokens).toExcept

/-- Reads a source text as an expression. -/
def parse : String → Except SourceError Expr := parseWith Grammar.expr

def parseAtom : String → Except SourceError Expr := parseWith Grammar.atom

def parseCall : String → Except SourceError Expr := parseWith (Grammar.functionCall Grammar.expr)

end ArithCompiler

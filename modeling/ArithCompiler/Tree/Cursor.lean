import ArithCompiler.Tree.Grammar

set_option autoImplicit false

/-!
# A place in a list of tokens

A cursor is a list of tokens and a place in it, which the productions move. A production that is
stuck leaves the cursor at the token that does not fit, and reading can go on from there.
-/

namespace ArithCompiler

structure Cursor where
  tokens : List Token
  pos : Nat

namespace Cursor

open Grammar (Production)

def ofTokens (tokens : List Token) : Cursor := ⟨tokens, 0⟩

def remaining (c : Cursor) : List Token := c.tokens.drop c.pos

def current (c : Cursor) : Token := Grammar.current c.remaining

/-- Past the current token, unless it marks the end. -/
def advance (c : Cursor) : Cursor :=
  if c.current.kind = .endOfInput then c else { c with pos := c.pos + 1 }

/-- The token `offset` places further on, or the last one if there are not so many. A place before
    the first token counts from the end, as far as there are tokens. -/
def peek? (c : Cursor) (offset : Int) : Option Token :=
  let place := (c.pos : Int) + offset
  let count := (c.tokens.length : Int)
  if count ≤ place then c.tokens.getLast?
  else if 0 ≤ place then c.tokens[place.toNat]?
  else if 0 ≤ place + count then c.tokens[(place + count).toNat]?
  else none

def isAt (c : Cursor) (symbol : String) : Bool := c.current.isSymbol symbol

def remark (c : Cursor) (text : String) : SourceError := .grammatical (.remark text) c.current

def run {α : Type} (p : Production α) (c : Cursor) : Except SourceError α × Cursor :=
  let outcome := p c.remaining
  (outcome.toExcept, { c with pos := c.tokens.length - outcome.rest.length })

def expect (symbol : String) : Cursor → Except SourceError Token × Cursor :=
  run (Grammar.expect symbol)

def expectEnd : Cursor → Except SourceError Unit × Cursor := run Grammar.expectEnd

end Cursor

end ArithCompiler

import ArithCompiler.Token.Basic

set_option autoImplicit false

/-!
# Errors in a source text

A text fails at a character that starts no token, or at a token that fits no production. The words
of the messages are all here.
-/

namespace ArithCompiler

inductive LexicalCause where
  | unexpectedCharacter (c : Char)
  | invalidExponent
  deriving DecidableEq, Repr

/-- Why a production stops at the token it has reached. -/
inductive GrammarCause where
  | expectedSymbol (symbol : String)
  | expectedExpression
  | expectedAtom
  | expectedFunctionName
  | expectedEnd
  /-- A number token whose text is no numeral; the lexer makes none. -/
  | malformedNumber
  /-- More nesting than the input has tokens, which no input has. -/
  | nestedTooDeep
  | remark (text : String)
  deriving DecidableEq, Repr

inductive SourceError where
  | lexical (cause : LexicalCause) (line col : Nat)
  | grammatical (cause : GrammarCause) (found : Token)
  deriving DecidableEq, Repr

def LexicalCause.text : LexicalCause → String
  | unexpectedCharacter c => "unexpected character: " ++ Text.quoted (String.singleton c)
  | invalidExponent => "invalid float exponent"

def GrammarCause.text (found : Token) : GrammarCause → String
  | expectedSymbol symbol => "expected '" ++ symbol ++ "', got " ++ found.describe
  | expectedExpression => "expected expression, got " ++ found.describe
  | expectedAtom => "expected number or identifier, got " ++ found.describe
  | expectedFunctionName => "expected function name, got " ++ found.describe
  | expectedEnd => "unexpected " ++ found.describe
  | malformedNumber => "malformed number"
  | nestedTooDeep => "nested too deep"
  | remark text => text

namespace SourceError

def text : SourceError → String
  | lexical cause _ _ => cause.text
  | grammatical cause found => cause.text found

def line : SourceError → Nat
  | lexical _ line _ => line
  | grammatical _ found => found.line

def col : SourceError → Nat
  | lexical _ _ col => col
  | grammatical _ found => found.col

def message (e : SourceError) : String :=
  e.text ++ " at line " ++ toString e.line ++ " col " ++ toString e.col

end SourceError

end ArithCompiler

import ArithCompiler.Text.Quoted

set_option autoImplicit false

/-!
# Tokens

A token has a kind, the text it was read from, and the place of its first character; lines and
columns count from one. A list of tokens ends with the one that marks the end of the input.
-/

namespace ArithCompiler

inductive TokenKind where
  | number
  | name
  | symbol
  | endOfInput
  deriving DecidableEq, Repr

def TokenKind.title : TokenKind → String
  | number => "NUMBER"
  | name => "IDENT"
  | symbol => "OP"
  | endOfInput => "EOF"

structure Token where
  kind : TokenKind
  text : String
  line : Nat
  col : Nat
  deriving DecidableEq, Repr

namespace Token

def isSymbol (t : Token) (symbol : String) : Bool := t.kind == .symbol && t.text == symbol

theorem isSymbol_iff {t : Token} {symbol : String} :
    t.isSymbol symbol ↔ t.kind = .symbol ∧ t.text = symbol := by
  simp [isSymbol]

def describe (t : Token) : String :=
  match t.kind with
  | .endOfInput => "end of input"
  | .symbol => "'" ++ t.text ++ "'"
  | .number => "number '" ++ t.text ++ "'"
  | .name => "ident '" ++ t.text ++ "'"

def display (kind text : String) (line col : Int) : String :=
  "Token(" ++ kind ++ ", " ++ Text.quoted text ++ ", " ++ toString line ++ ", " ++ toString col
    ++ ")"

end Token

end ArithCompiler

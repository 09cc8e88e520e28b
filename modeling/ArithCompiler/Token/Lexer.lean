import ArithCompiler.Number.Decimal
import ArithCompiler.SourceError

set_option autoImplicit false

/-!
# From characters to tokens

At each place that is no blank the lexer takes the longest number, the longest name, or one symbol.
Only ASCII letters and digits occur in tokens.
-/

namespace ArithCompiler

namespace Lexer

open Number (isDigit)

def isNameStart (c : Char) : Bool := ('a' ≤ c && c ≤ 'z') || ('A' ≤ c && c ≤ 'Z') || c == '_'

def isNameChar (c : Char) : Bool := isNameStart c || isDigit c

def isBlank (c : Char) : Bool := c == ' ' || c == '\t' || c == '\r'

def symbols : List Char := ['+', '-', '*', '/', '(', ')', ',']

/-- A digit, or a point before a digit. -/
def startsNumber (c : Char) (rest : List Char) : Bool :=
  isDigit c || (c == '.' && rest.head?.any isDigit)

/-- Digits with at most one point after or between them. -/
def mantissa (cs : List Char) : List Char :=
  let whole := cs.takeWhile isDigit
  match cs.dropWhile isDigit with
  | '.' :: rest => whole ++ '.' :: rest.takeWhile isDigit
  | _ => whole

def sign : List Char → List Char
  | c :: _ => if c == '+' || c == '-' then [c] else []
  | [] => []

/-- The exponent part that follows a mantissa; nothing when its digits are missing. -/
def exponent? : List Char → Option (List Char)
  | [] => some []
  | c :: cs =>
    if c == 'e' || c == 'E' then
      let digits := (cs.drop (sign cs).length).takeWhile isDigit
      if digits.isEmpty then none else some (c :: sign cs ++ digits)
    else some []

/-- What stands at a place that is no blank. -/
inductive Lexeme where
  | token (kind : TokenKind) (text : List Char)
  | unreadable (cause : LexicalCause)

def lexeme (c : Char) (rest : List Char) : Lexeme :=
  if startsNumber c rest then
    let digits := mantissa (c :: rest)
    match exponent? ((c :: rest).drop digits.length) with
    | some power => .token .number (digits ++ power)
    | none => .unreadable .invalidExponent
  else if isNameStart c then .token .name ((c :: rest).takeWhile isNameChar)
  else if symbols.contains c then .token .symbol [c]
  else .unreadable (.unexpectedCharacter c)

def tokensFrom (line col : Nat) (cs : List Char) : Except SourceError (List Token) :=
  match cs with
  | [] => .ok [⟨.endOfInput, "", line, col⟩]
  | c :: rest =>
    if c == '\n' then tokensFrom (line + 1) 1 rest
    else if isBlank c then tokensFrom line (col + 1) rest
    else
      match lexeme c rest with
      | .token kind text =>
        (tokensFrom line (col + text.length) (rest.drop (text.length - 1))).map
          (⟨kind, String.ofList text, line, col⟩ :: ·)
      | .unreadable cause => .error (.lexical cause line col)
termination_by cs.length
decreasing_by all_goals (simp only [List.length_cons, List.length_drop]; omega)

end Lexer

/-- The tokens of a source text, the end mark included. -/
def tokenize (source : String) : Except SourceError (List Token) :=
  Lexer.tokensFrom 1 1 source.toList

end ArithCompiler

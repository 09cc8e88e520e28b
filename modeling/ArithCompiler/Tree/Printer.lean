import ArithCompiler.Number.Shortest
import ArithCompiler.Text.Quoted
import ArithCompiler.Tree.Basic

set_option autoImplicit false

/-!
# Texts of a tree

The source text has parentheses only where precedence or left associativity asks for them. The
outline names every node and field.
-/

namespace ArithCompiler.Tree

/-- How tight the text of a tree holds together. -/
def level : Expr → Nat
  | binary op _ _ => op.level
  | _ => 3

def parenthesized (needed : Bool) (text : String) : String :=
  if needed then "(" ++ text ++ ")" else text

mutual
def toSource : Expr → String
  | number v => Number.text v
  | name x => x
  | binary op l r =>
    parenthesized (l.level < op.level) l.toSource ++ " " ++ op.symbol ++ " "
      ++ parenthesized (r.level ≤ op.level) r.toSource
  | call f args => f ++ "(" ++ sourceList args ++ ")"
  | foreign x => nomatch x

def sourceList : List Expr → String
  | [] => ""
  | [e] => e.toSource
  | e :: es => e.toSource ++ ", " ++ sourceList es
end

mutual
def outline : Expr → String
  | number v => "Number(value=" ++ Number.text v ++ ")"
  | name x => "Ident(name=" ++ Text.quoted x ++ ")"
  | binary op l r =>
    "BinaryOp(op=" ++ op.outline ++ ", left=" ++ l.outline ++ ", right=" ++ r.outline ++ ")"
  | call f args =>
    "FunctionCall(name=" ++ Text.quoted f ++ ", arguments=(" ++ outlineList args
      ++ (if args.length = 1 then "," else "") ++ "))"
  | foreign x => nomatch x

def outlineList : List Expr → String
  | [] => ""
  | [e] => e.outline
  | e :: es => e.outline ++ ", " ++ outlineList es
end

/-- The source text of a tree; a foreign value in it is refused. -/
def toSource? {φ : Type} [Alien φ] (t : Tree φ) : Except Foreign String :=
  t.toExpr?.map toSource

end ArithCompiler.Tree

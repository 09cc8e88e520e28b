import ArithCompiler.Operator

set_option autoImplicit false

/-!
# Expression trees

A tree may hold values that are no expressions, of a type `φ`. An expression is a tree without any;
a draft may hold values of the kinds that callers are known to hand in.
-/

namespace ArithCompiler

inductive Tree (φ : Type) where
  | number (value : Float)
  | name (text : String)
  | binary (op : Operator) (left right : Tree φ)
  | call (function : String) (arguments : List (Tree φ))
  | foreign (value : φ)

/-- What a caller may put in the place of an expression. -/
inductive Foreign where
  | real
  | integer
  | text
  | nothing
  | sequence
  /-- A leaf that is neither a number nor a name. -/
  | bareAtom
  deriving DecidableEq, Repr

def Foreign.typeName : Foreign → String
  | real => "float"
  | integer => "int"
  | text => "str"
  | nothing => "NoneType"
  | sequence => "list"
  | bareAtom => "Atom"

class Alien (φ : Type) where
  kind : φ → Foreign

instance : Alien Empty := ⟨nofun⟩

instance : Alien Foreign := ⟨id⟩

abbrev Expr := Tree Empty

abbrev Draft := Tree Foreign

def Tree.typeName {φ : Type} [Alien φ] : Tree φ → String
  | number _ => "Number"
  | name _ => "Ident"
  | binary _ _ _ => "BinaryOp"
  | call _ _ => "FunctionCall"
  | foreign x => (Alien.kind x).typeName

def Foreign.message : Foreign → String
  | bareAtom => "unhandled atom type: Atom"
  | kind => "unhandled expr type: " ++ kind.typeName

namespace Tree

mutual
/-- The expression, or the first foreign value from left to right. -/
def toExpr? {φ : Type} [Alien φ] : Tree φ → Except Foreign Expr
  | number v => .ok (number v)
  | name x => .ok (name x)
  | binary op l r => do
    let left ← l.toExpr?
    let right ← r.toExpr?
    return binary op left right
  | call f args => do
    let arguments ← toExprs? args
    return call f arguments
  | foreign x => .error (Alien.kind x)

def toExprs? {φ : Type} [Alien φ] : List (Tree φ) → Except Foreign (List Expr)
  | [] => .ok []
  | t :: ts => do
    let e ← t.toExpr?
    let es ← toExprs? ts
    return e :: es
end

mutual
/-- Equality up to the sign of zero, as numbers compare. -/
def same {φ : Type} [DecidableEq φ] : Tree φ → Tree φ → Bool
  | number v, number w => v == w
  | name x, name y => x == y
  | binary op l r, binary op' l' r' => op == op' && l.same l' && r.same r'
  | call f args, call g args' => f == g && sameAll args args'
  | foreign x, foreign y => x == y
  | _, _ => false

def sameAll {φ : Type} [DecidableEq φ] : List (Tree φ) → List (Tree φ) → Bool
  | [], [] => true
  | t :: ts, u :: us => t.same u && sameAll ts us
  | _, _ => false
end

end Tree

end ArithCompiler

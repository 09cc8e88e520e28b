import ArithCompiler.Number.Binary
import ArithCompiler.Tree.Basic

set_option autoImplicit false

/-!
# Building trees from plain values

A number becomes a number, a text a name, and a tree stays what it is when it is used as an operand.
-/

namespace ArithCompiler

/-- A plain value from which a tree may be built. -/
inductive Literal where
  | integer (n : Int)
  | real (x : Float)
  | text (s : String)
  | truth
  | nothing
  | sequence
  | tree (t : Draft)

inductive LiteralFault where
  /-- An integer beyond the largest double. -/
  | tooLarge
  | truth
  | notAtomic (typeName : String)
  deriving DecidableEq, Repr

/-- The integer too large for a double has no words of its own. -/
def LiteralFault.message? : LiteralFault → Option String
  | tooLarge => none
  | truth => some "bool is not a numeric literal"
  | notAtomic typeName => some ("cannot convert " ++ typeName ++ " to an atom")

namespace Literal

def atom {φ : Type} : Literal → Except LiteralFault (Tree φ)
  | integer n =>
    let x := Number.ofInteger n
    if x.isInf then .error .tooLarge else .ok (.number x)
  | real x => .ok (.number x)
  | text s => .ok (.name s)
  | truth => .error .truth
  | nothing => .error (.notAtomic Foreign.nothing.typeName)
  | sequence => .error (.notAtomic Foreign.sequence.typeName)
  | tree t => .error (.notAtomic t.typeName)

/-- An operand: a node as it is, or an atom. -/
def operand : Literal → Except LiteralFault Draft
  | tree (.foreign x) => .error (.notAtomic x.typeName)
  | tree t => .ok t
  | l => l.atom

/-- The operator applied to two operands; the left one is converted first. -/
def binary (op : Operator) (left right : Literal) : Except LiteralFault Draft := do
  let l ← left.operand
  let r ← right.operand
  return .binary op l r

def call (function : String) (arguments : List Literal) : Except LiteralFault Draft := do
  let args ← arguments.mapM operand
  return .call function args

end Literal

end ArithCompiler

set_option autoImplicit false

/-!
# The four operators
-/

namespace ArithCompiler

inductive Operator where
  | add
  | subtract
  | multiply
  | divide
  deriving DecidableEq, Repr

namespace Operator

def symbol : Operator → String
  | add => "+"
  | subtract => "-"
  | multiply => "*"
  | divide => "/"

def ofSymbol? : String → Option Operator
  | "+" => some add
  | "-" => some subtract
  | "*" => some multiply
  | "/" => some divide
  | _ => none

def name : Operator → String
  | add => "add"
  | subtract => "subtract"
  | multiply => "multiply"
  | divide => "divide"

/-- The name in upper case, as the outline of a tree shows it. -/
def title : Operator → String
  | add => "ADD"
  | subtract => "SUBTRACT"
  | multiply => "MULTIPLY"
  | divide => "DIVIDE"

def mnemonic : Operator → String
  | add => "fadd"
  | subtract => "fsub"
  | multiply => "fmul"
  | divide => "fdiv"

/-- Products bind tighter than sums. -/
def level : Operator → Nat
  | add | subtract => 1
  | multiply | divide => 2

def outline (op : Operator) : String :=
  "<OpKind." ++ op.title ++ ": '" ++ op.symbol ++ "'>"

theorem ofSymbol?_symbol (op : Operator) : ofSymbol? op.symbol = some op := by
  cases op <;> rfl

theorem symbol_ne_opening (op : Operator) : op.symbol ≠ "(" := by
  cases op <;> decide

theorem level_pos (op : Operator) : 1 ≤ op.level := by
  cases op <;> decide

theorem level_le (op : Operator) : op.level ≤ 2 := by
  cases op <;> decide

end Operator

end ArithCompiler

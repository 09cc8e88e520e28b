import ArithCompiler.Bindings
import ArithCompiler.Math.Guarded
import ArithCompiler.Number.Decimal

set_option autoImplicit false

/-!
# Function tables

The names under which functions can be called: the routines of the bytecode interpreter, and the
symbols of the C mathematics library.
-/

namespace ArithCompiler.Math

inductive RunError where
  /-- A register was read before it was written. -/
  | undefinedRegister
  | undefinedFunction (name : String)
  | wrongArgumentCount (name : String)
  | missingOperand
  | unknownOpcode (opcode : String)
  | noReturn (unit : String)
  deriving DecidableEq, Repr

/-- Only what a program itself does wrong has words. -/
def RunError.message? : RunError → Option String
  | unknownOpcode opcode => some ("unknown opcode: " ++ opcode)
  | noReturn unit => some ("unit '" ++ unit ++ "' fell off the end without a return")
  | undefinedRegister | undefinedFunction _ | wrongArgumentCount _ | missingOperand => none

/-- A function that can be called with any number of arguments, of which it takes a fixed one. -/
abbrev Routine := List Float → Except RunError Float

abbrev FunctionTable := Bindings Routine

def unary (name : String) (f : Float → Float) : String × Routine :=
  (name, fun
    | [x] => .ok (f x)
    | _ => .error (.wrongArgumentCount name))

def binary (name : String) (f : Float → Float → Float) : String × Routine :=
  (name, fun
    | [x, y] => .ok (f x y)
    | _ => .error (.wrongArgumentCount name))

/-- The routines of the interpreter. Rounding to an integer loses the sign of zero. -/
def routines (c : Elementary) : FunctionTable := [
  unary "sin" (guarded false (checked false c.sin)),
  unary "cos" (guarded false (checked false c.cos)),
  unary "tan" (guarded false (checked false c.tan)),
  unary "asin" (guarded false (checked false c.asin)),
  unary "acos" (guarded false (checked false c.acos)),
  unary "atan" c.atan,
  unary "exp" (guarded false (checked true c.exp)),
  unary "log" (guarded true (checked false c.log)),
  unary "log10" (guarded true (checked false c.log10)),
  unary "sqrt" (guarded false (checked false Float.sqrt)),
  unary "fabs" Float.abs,
  unary "floor" (throughInteger .down),
  unary "ceil" (throughInteger .up),
  binary "pow" (power c.pow),
  binary "atan2" c.atan2,
  binary "fmod" remainder]

def arities : Bindings Int := [
  ("sin", 1), ("cos", 1), ("tan", 1), ("asin", 1), ("acos", 1), ("atan", 1), ("exp", 1),
  ("log", 1), ("log10", 1), ("sqrt", 1), ("fabs", 1), ("floor", 1), ("ceil", 1), ("pow", 2),
  ("atan2", 2), ("fmod", 2)]

def pi : Float := Number.Decimal.toFloat ⟨3141592653589793, -15⟩

def euler : Float := Number.Decimal.toFloat ⟨2718281828459045, -15⟩

def tau : Float := Number.Decimal.toFloat ⟨6283185307179586, -15⟩

def constants : Bindings Float := [
  ("pi", pi), ("e", euler), ("tau", tau), ("inf", Number.positiveInfinity),
  ("nan", Number.notANumber)]

end ArithCompiler.Math

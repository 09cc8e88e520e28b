import ArithCompiler.Text.Quoted
import ArithCompiler.Tree.Basic

set_option autoImplicit false

/-!
# Faults of code generation

Causes of every refusal between a tree and a finished unit, with the words of their messages.
-/

namespace ArithCompiler

structure Signature where
  params : List String
  result : String
  deriving DecidableEq, Repr

def Signature.display (s : Signature) : String :=
  "fn(" ++ ", ".intercalate s.params ++ ") -> " ++ s.result

def Signature.entry : Signature := ⟨[], "f64"⟩

/-- The name of the unit that every compilation makes. -/
def entryPoint : String := "calc_main"

inductive Phase where
  | idle
  | created
  | body
  | returned
  | finalized
  /-- A phase of which the building of a unit knows nothing. -/
  | other (name : String)
  deriving DecidableEq, Repr

namespace Phase

def name : Phase → String
  | idle => "idle"
  | created => "created"
  | body => "body"
  | returned => "returned"
  | finalized => "finalized"
  | other name => name

def ofName (name : String) : Phase :=
  ([idle, created, body, returned, finalized].find? (·.name == name)).getD (other name)

end Phase

inductive Action where
  | create
  | position
  | constant
  | binary (op : Operator)
  | call (name : String)
  | ret
  | finalize
  deriving DecidableEq, Repr

def Action.text : Action → String
  | create => "create a unit"
  | position => "position the cursor"
  | constant => "emit a constant"
  | binary op => "emit " ++ op.name
  | call name => "emit a call to '" ++ name ++ "'"
  | ret => "emit a return"
  | finalize => "finalize"

inductive Handle where
  | register (index : Int)
  | text (value : String)
  | nothing
  deriving DecidableEq, Repr

def Handle.display : Handle → String
  | register index => toString index
  | text value => Text.quoted value
  | nothing => "None"

inductive BackendError where
  | wrongPhase (action : Action) (actual expected : Phase)
  | noReturn (unit : String)
  | wrongSignature (unit : String) (signature : Signature)
  | foreignHandle (handle : Handle)
  | noFunction (name : String)
  | wrongArgumentCount (name : String) (count : Nat)
  | invalidModule
  | noLibrarySymbol (name : String)
  | noCode (unit : String)
  | optimizationLevel (level : Int)
  deriving DecidableEq, Repr

def BackendError.message : BackendError → String
  | wrongPhase action actual expected =>
    "cannot " ++ action.text ++ " while backend is " ++ actual.name ++ ", expected "
      ++ expected.name
  | noReturn unit => "cannot finalize '" ++ unit ++ "': body has no return"
  | wrongSignature unit signature =>
    "unit '" ++ unit ++ "' must have signature " ++ Signature.entry.display ++ ", got "
      ++ signature.display
  | foreignHandle handle => "not a value of this unit: " ++ handle.display
  | noFunction name => "no function '" ++ name ++ "' to call"
  | wrongArgumentCount name count =>
    "cannot call '" ++ name ++ "' with " ++ toString count ++ " arguments"
  | invalidModule => "invalid module"
  | noLibrarySymbol name => "no math library symbol '" ++ name ++ "'"
  | noCode unit => "JIT produced no code for '" ++ unit ++ "'"
  | optimizationLevel level => "optimization level must be 0-3, got " ++ toString level

/-- A construct for which no code is made. -/
inductive Construct where
  /-- A call when there is nothing to resolve it with. -/
  | callWithoutResolver (name : String)
  | refusedCall (name : String)
  | unknownFunction (name : String)
  | wrongArity (name : String) (arity : Int) (count : Nat)
  deriving DecidableEq, Repr

def Construct.describe : Construct → String
  | callWithoutResolver name => "call to '" ++ name ++ "' with no resolver"
  | refusedCall name => "call to '" ++ name ++ "'"
  | unknownFunction name => "call to unknown function '" ++ name ++ "'"
  | wrongArity name arity count =>
    "function '" ++ name ++ "' takes " ++ toString arity ++ " argument"
      ++ (if arity = 1 then "" else "s") ++ ", got " ++ toString count

inductive Fault where
  | unbound (name : String)
  | unsupported (construct : Construct)
  /-- So many operands were left where one is due. -/
  | residual (count : Nat)
  | foreign (kind : Foreign)
  | backend (error : BackendError)
  | hookMissing
  /-- A module has a function of this name already. -/
  | nameTaken (name : String)
  /-- A call with fewer arguments than its callee has parameters. -/
  | missingArgument (name : String)
  | notPositioned
  | returnedBefore
  /-- Code is found by its name, which has to be ASCII. -/
  | nameNotAscii (name : String)
  deriving DecidableEq, Repr

/-- Faults that no caller is meant to see have no words. -/
def Fault.message? : Fault → Option String
  | unbound name => some ("unbound identifier '" ++ name ++ "'")
  | unsupported construct => some ("unsupported construct: " ++ construct.describe)
  | residual count =>
    some ("operand stack holds " ++ toString count ++ " values after traversal, expected 1")
  | foreign kind => some kind.message
  | backend error => some error.message
  | hookMissing | nameTaken _ | missingArgument _ | notPositioned | returnedBefore
  | nameNotAscii _ => none

end ArithCompiler

import ArithCompiler.Number.Shortest
import ArithCompiler.Scope

set_option autoImplicit false

/-!
# From a tree to a unit

The tree is walked once from left to right, operands before their operator. A leaf pushes one value
on the operand stack; an operator or a call takes its operands from the stack and pushes the value
that the backend gives for it. So one value is left at the end, which the unit returns.

Whatever happened up to a fault stays visible: the operations the backend has carried out, the
operand stack, and the log.
-/

namespace ArithCompiler

inductive Level where
  | debug
  | info
  deriving DecidableEq, Repr

def Level.name : Level → String
  | debug => "DEBUG"
  | info => "INFO"

structure LogEntry where
  level : Level
  logger : String
  message : String
  deriving DecidableEq, Repr

namespace LogEntry

def compiler (level : Level) (message : String) : LogEntry :=
  ⟨level, "calc.trans.compiler", message⟩

def native (message : String) : LogEntry := ⟨.debug, "calc.trans.llvm", message⟩

end LogEntry

/-- A deliberate defect of the compiler's bookkeeping, to exercise the check at the end. -/
inductive Imbalance where
  | balanced
  /-- A leaf pushes one more constant. -/
  | extraConstant (value : Float := 0.0)
  /-- An operator takes one more value away. -/
  | extraPop
  /-- A leaf pushes nothing. -/
  | mutedLeaves
  deriving DecidableEq, Repr

/-- A compilation in progress; the operand stack has its top first. -/
structure Work (σ ν : Type) where
  backend : Backend σ
  stack : List ν
  log : List LogEntry

abbrev Emit (σ ν α : Type) := Step (Work σ ν) α

namespace Emit

variable {σ ν α : Type}

def note (message : String) : Emit σ ν Unit :=
  modify fun w => { w with log := w.log ++ [.compiler .debug message] }

def perform (operation : Step (Backend σ) α) : Emit σ ν α :=
  operation.within (·.backend) fun backend w => { w with backend }

def push (operation : Step (Backend σ) ν) : Emit σ ν Unit := do
  let v ← perform operation
  modify fun w => { w with stack := v :: w.stack }

def pop : Emit σ ν ν := do
  let w ← get
  match w.stack with
  | v :: stack =>
    set { w with stack }
    return v
  | [] => throw (.residual 0)

/-- The last `n` values in the order in which they were pushed. -/
def popMany (n : Nat) : Emit σ ν (List ν) := do
  let w ← get
  if w.stack.length < n then throw (.residual w.stack.length)
  set { w with stack := w.stack.drop n }
  return (w.stack.take n).reverse

end Emit

structure Compiler (σ ν υ : Type) where
  target : Target σ ν υ
  resolver : Resolver
  imbalance : Imbalance
  /-- What a finished unit adds to the log. -/
  notices : υ → List LogEntry

namespace Compiler

variable {φ σ ν υ : Type} [Alien φ]

open Emit (note perform push pop popMany)

def leaf (c : Compiler σ ν υ) (code : Emit σ ν Unit) : Emit σ ν Unit :=
  match c.imbalance with
  | .mutedLeaves => pure ()
  | .extraConstant value => do
    code
    push (Backend.const c.target value)
  | _ => code

def number (c : Compiler σ ν υ) (value : Float) : Emit σ ν Unit :=
  c.leaf do
    note ("const " ++ Number.text value)
    push (Backend.const c.target value)

def name (c : Compiler σ ν υ) (text : String) : Emit σ ν Unit :=
  c.leaf do
    if c.resolver = .missing then throw (.unbound text)
    note ("resolve " ++ text)
    push (c.resolver.ident c.target text)

def operator (c : Compiler σ ν υ) (op : Operator) : Emit σ ν Unit := do
  let right ← pop
  let left ← pop
  note ("binary " ++ op.name)
  push (Backend.binary c.target op left right)
  if c.imbalance = .extraPop then
    let _ ← pop

/-- A call is refused at once when there is nothing to resolve it with. -/
def requireResolver (c : Compiler σ ν υ) (function : String) : Emit σ ν Unit :=
  if c.resolver = .missing then throw (.unsupported (.callWithoutResolver function)) else pure ()

def invocation (c : Compiler σ ν υ) (function : String) (count : Nat) : Emit σ ν Unit := do
  let args ← popMany count
  note ("call " ++ function ++ "/" ++ toString count)
  push (c.resolver.call c.target function args)

mutual
def emit (c : Compiler σ ν υ) : Tree φ → Emit σ ν Unit
  | .number value => c.number value
  | .name text => c.name text
  | .binary op left right => do
    c.emit left
    c.emit right
    c.operator op
  | .call function arguments => do
    c.requireResolver function
    c.emitAll arguments
    c.invocation function arguments.length
  | .foreign x =>
    match Alien.kind x with
    | .bareAtom => c.leaf (throw (.foreign .bareAtom))
    | kind => throw (.foreign kind)

def emitAll (c : Compiler σ ν υ) : List (Tree φ) → Emit σ ν Unit
  | [] => pure ()
  | t :: ts => do
    c.emit t
    c.emitAll ts
end

def opening (c : Compiler σ ν υ) : Emit σ ν Unit := do
  modify fun w => { w with stack := [] }
  note ("creating unit " ++ entryPoint ++ " " ++ Signature.entry.display)
  perform (Backend.create c.target entryPoint .entry)
  perform (Backend.position c.target)

/-- Returns the only value on the stack and finishes the unit. -/
def closing (c : Compiler σ ν υ) : Emit σ ν υ := do
  let w ← get
  if w.stack.length ≠ 1 then throw (.residual w.stack.length)
  let value ← pop
  perform (Backend.ret c.target value)
  let unit ← perform (Backend.finalize c.target)
  modify fun w => { w with log := w.log ++ c.notices unit }
  note ("finalized unit " ++ entryPoint)
  return unit

def compile (c : Compiler σ ν υ) (t : Tree φ) : Emit σ ν υ := do
  c.opening
  c.emit t
  c.closing

def announce (message : String) : Emit σ ν Unit :=
  modify fun w => { w with log := w.log ++ [.compiler .info message] }

/-- Compiles a tree as one phase, whose start and end are logged. -/
def compilePhase (c : Compiler σ ν υ) (t : Tree φ) : Emit σ ν υ := do
  announce "Starting the compilation phase"
  let unit ← c.compile t
  announce "Finished the compilation phase"
  return unit

end Compiler

def Work.fresh {σ ν : Type} (state : σ) : Work σ ν := ⟨.fresh state, [], []⟩

end ArithCompiler

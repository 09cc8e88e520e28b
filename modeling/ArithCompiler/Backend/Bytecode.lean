import ArithCompiler.Backend.Contract
import ArithCompiler.Math.Library
import ArithCompiler.Number.Shortest

set_option autoImplicit false

/-!
# Straight-line bytecode

A program is a list of instructions over registers and the functions it may call. The target gives
every value a register of its own, so that the code it makes runs from top to bottom. Programs made
by hand may write a register twice, use opcodes that nobody knows, or end without a return.
-/

namespace ArithCompiler

open Math (FunctionTable RunError Routine)

inductive Opcode where
  | const
  | binary (op : Operator)
  | call
  | ret
  | other (name : String)
  deriving DecidableEq, Repr

namespace Opcode

def name : Opcode → String
  | const => "const"
  | binary op => op.mnemonic
  | call => "call"
  | ret => "ret"
  | other name => name

def ofName (name : String) : Opcode :=
  let known := [const, binary .add, binary .subtract, binary .multiply, binary .divide, call, ret]
  (known.find? (·.name == name)).getD (other name)

end Opcode

/-- `dest = opcode operands`; a constant has a value, a call the name of its function, and a return
    no destination. -/
structure Instr where
  opcode : Opcode
  dest : Option Int
  operands : List Int
  value : Float
  callee : String
  deriving DecidableEq

namespace Instr

def const (dest : Nat) (value : Float) : Instr := ⟨.const, some dest, [], value, ""⟩

def binary (op : Operator) (dest : Nat) (left right : Int) : Instr :=
  ⟨.binary op, some dest, [left, right], 0.0, ""⟩

def call (dest : Nat) (callee : String) (args : List Int) : Instr :=
  ⟨.call, some dest, args, 0.0, callee⟩

def ret (value : Int) : Instr := ⟨.ret, none, [value], 0.0, ""⟩

def registerText (r : Int) : String := "%" ++ toString r

def destText : Option Int → String
  | some r => registerText r
  | none => "%None"

def operandsText (rs : List Int) : String := ", ".intercalate (rs.map registerText)

def display (i : Instr) : String :=
  match i.opcode with
  | .const => destText i.dest ++ " = const " ++ Number.text i.value
  | .ret => "ret " ++ operandsText i.operands
  | .call => destText i.dest ++ " = call " ++ i.callee ++ "(" ++ operandsText i.operands ++ ")"
  | opcode => destText i.dest ++ " = " ++ opcode.name ++ " " ++ operandsText i.operands

end Instr

/-- The written registers, the last written one first. -/
abbrev Registers := List (Int × Float)

namespace Registers

def read (regs : Registers) (r : Int) : Except RunError Float :=
  match regs.lookup r with
  | some v => .ok v
  | none => .error .undefinedRegister

def write (regs : Registers) (dest : Option Int) (v : Float) : Registers :=
  match dest with
  | some r => (r, v) :: regs
  | none => regs

theorem read_write_self (regs : Registers) (r : Int) (v : Float) :
    (regs.write (some r) v).read r = .ok v := by
  simp [read, write]

theorem read_write_of_ne (regs : Registers) {r s : Int} (h : r ≠ s) (v : Float) :
    (regs.write (some s) v).read r = regs.read r := by
  have hne : (r == s) = false := beq_eq_false_iff_ne.2 h
  simp [read, write, List.lookup_cons, hne]

end Registers

/-- The arithmetic of the interpreter. -/
def Operator.apply : Operator → Float → Float → Float
  | add => (· + ·)
  | subtract => (· - ·)
  | multiply => (· * ·)
  | divide => Math.quotient

structure Program where
  name : String
  code : List Instr
  functions : FunctionTable

namespace Program

def operand (i : Instr) (place : Nat) : Except RunError Int :=
  match i.operands[place]? with
  | some r => .ok r
  | none => .error .missingOperand

def invoke (functions : FunctionTable) (name : String) (args : List Float) :
    Except RunError Float :=
  match functions.get? name with
  | some f => f args
  | none => .error (.undefinedFunction name)

/-- Runs the code from some registers on, up to the first return. -/
def exec (unit : String) (functions : FunctionTable) :
    List Instr → Registers → Except RunError Float
  | [], _ => .error (.noReturn unit)
  | i :: rest, regs =>
    match i.opcode with
    | .const => exec unit functions rest (regs.write i.dest i.value)
    | .binary op => do
      let a ← regs.read (← operand i 0)
      let b ← regs.read (← operand i 1)
      exec unit functions rest (regs.write i.dest (op.apply a b))
    | .call => do
      let args ← i.operands.mapM regs.read
      let v ← invoke functions i.callee args
      exec unit functions rest (regs.write i.dest v)
    | .ret => do regs.read (← operand i 0)
    | .other opcode => .error (.unknownOpcode opcode)

def run (p : Program) : Except RunError Float := exec p.name p.functions p.code []

def listing (p : Program) : String :=
  "define f64 @" ++ p.name ++ "() \x7b\nentry:\n"
    ++ String.join (p.code.map fun i => "  " ++ i.display ++ "\n") ++ "\x7d\n"

end Program

/-- Code under construction: the instructions in order, and how many registers are in use. The code
    of units begun earlier is kept, in the order in which they were begun. -/
structure Bytecode where
  functions : FunctionTable
  earlier : List (List Instr)
  code : List Instr
  used : Nat

/-- A finished unit. It does not own its code: that is the code at a place of its maker, and grows
    with it until the next unit is begun. -/
structure BytecodeUnit where
  name : String
  place : Nat
  deriving DecidableEq, Repr

namespace Bytecode

def empty (functions : FunctionTable) : Bytecode := ⟨functions, [], [], 0⟩

/-- The code of the unit begun at the place, the open one included. -/
def codeAt (b : Bytecode) (place : Nat) : List Instr := ((b.earlier ++ [b.code])[place]?).getD []

def program (b : Bytecode) (u : BytecodeUnit) : Program := ⟨u.name, b.codeAt u.place, b.functions⟩

def register (b : Bytecode) (h : Handle) : Except Fault Int :=
  match h with
  | .register r => if 0 ≤ r ∧ r < b.used then .ok r else .error (.backend (.foreignHandle h))
  | _ => .error (.backend (.foreignHandle h))

def emit (i : Nat → Instr) : Step Bytecode Handle := do
  let b ← get
  set { b with code := b.code ++ [i b.used], used := b.used + 1 }
  return .register b.used

def target : Target Bytecode Handle BytecodeUnit where
  create _ _ := modify fun b => { b with earlier := b.earlier ++ [b.code], code := [], used := 0 }
  position := pure ()
  const value := emit fun dest => .const dest value
  binary op left right := do
    let b ← get
    let l ← b.register left
    let r ← b.register right
    emit fun dest => .binary op dest l r
  call name args := do
    let b ← get
    if (b.functions.get? name).isNone then throw (.backend (.noFunction name))
    let operands ← (args.mapM b.register : Except Fault (List Int))
    emit fun dest => .call dest name operands
  ret value := do
    let b ← get
    let r ← b.register value
    set { b with code := b.code ++ [Instr.ret r] }
  finalize name := do
    let b ← get
    return ⟨name, b.earlier.length⟩

end Bytecode

end ArithCompiler

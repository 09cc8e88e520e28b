import ArithCompiler.Backend.Contract
import ArithCompiler.Math.Native

set_option autoImplicit false

/-!
# Modules of native code

A module holds the functions of its units and declarations of the others that they call. Constants
stand inside the instructions that use them. A result has a stem that tells what made it, and from
the second use of a stem on a count. A unit calls none but units begun before it, so the value of
each is that of its straight-line body under IEEE arithmetic, the values of the units before it, and
the C mathematics library.
-/

namespace ArithCompiler

open Math (Elementary)

inductive Stem where
  | operator (op : Operator)
  | call
  deriving DecidableEq, Repr

def Stem.text : Stem → String
  | operator .add => "addtmp"
  | operator .subtract => "subtmp"
  | operator .multiply => "multmp"
  | operator .divide => "divtmp"
  | call => "calltmp"

/-- The name of a result: a stem and how many results had it before. -/
structure ResultName where
  stem : Stem
  copy : Nat
  deriving DecidableEq, Repr

def ResultName.text (r : ResultName) : String :=
  "%\"" ++ r.stem.text ++ (if r.copy = 0 then "" else "." ++ toString r.copy) ++ "\""

inductive Operand where
  | const (value : Float)
  | result (name : ResultName)
  deriving DecidableEq

/-- The bits of a constant in hexadecimal, right-aligned in sixteen columns. -/
def constantText (x : Float) : String :=
  let digits := "0x" ++ String.ofList (Nat.toDigits 16 x.toBits.toNat)
  String.ofList (List.replicate (16 - digits.length) ' ') ++ digits

def Operand.text : Operand → String
  | const value => constantText value
  | result name => name.text

inductive NativeInstr where
  | binary (op : Operator) (dest : ResultName) (left right : Operand)
  | call (dest : ResultName) (callee : String) (args : List Operand)
  | ret (value : Operand)
  deriving DecidableEq

namespace NativeInstr

def dest? : NativeInstr → Option ResultName
  | binary _ dest _ _ => some dest
  | call dest _ _ => some dest
  | ret _ => none

def operands : NativeInstr → List Operand
  | binary _ _ left right => [left, right]
  | call _ _ args => args
  | ret value => [value]

def isReturn : NativeInstr → Bool
  | ret _ => true
  | _ => false

end NativeInstr

/-- A function name between quotes; a backslash and a quote in it become hexadecimal escapes. -/
def functionText (name : String) : String :=
  let escape (c : Char) : List Char :=
    if c == '\\' then ['\\', '5', 'c']
    else if c == Text.doubleQuote then ['\\', '2', '2']
    else [c]
  "@\"" ++ String.ofList (name.toList.flatMap escape) ++ "\""

def NativeInstr.text : NativeInstr → String
  | binary op dest left right =>
    dest.text ++ " = " ++ op.mnemonic ++ " double " ++ left.text ++ ", " ++ right.text
  | call dest callee args =>
    dest.text ++ " = call double " ++ functionText callee ++ "("
      ++ ", ".intercalate (args.map fun a => "double " ++ a.text) ++ ")"
  | ret value => "ret double " ++ value.text

/-- The function of a unit, which has no parameters and one block. -/
structure NativeFunction where
  name : String
  body : List NativeInstr
  deriving DecidableEq

namespace NativeFunction

def hasReturned (f : NativeFunction) : Bool := f.body.any (·.isReturn)

def freshName (f : NativeFunction) (stem : Stem) : ResultName :=
  ⟨stem, f.body.countP fun i => i.dest?.any (·.stem == stem)⟩

def text (f : NativeFunction) : String :=
  "define double " ++ functionText f.name ++ "()\n\x7b\nentry:\n"
    ++ String.join (f.body.map fun i => "  " ++ i.text ++ "\n") ++ "\x7d\n"

end NativeFunction

/-- A function that is called and not defined here. One bound to a library symbol is external; the
    others are intrinsics of the code generator. -/
structure Declaration where
  name : String
  arity : Nat
  external : Bool
  deriving DecidableEq, Repr

def Declaration.text (d : Declaration) : String :=
  let params := (List.range d.arity).map fun i => "double %\"." ++ toString (i + 1) ++ "\""
  "declare double " ++ functionText d.name ++ "(" ++ ", ".intercalate params ++ ")\n"

/-- Calls that the code generator knows by a name of its own. -/
def intrinsic? : String → Option String
  | "sqrt" => some "llvm.sqrt.f64"
  | "fabs" => some "llvm.fabs.f64"
  | _ => none

/-- The names of intrinsics that calls come to. -/
def intrinsics : List String := ["llvm.sqrt.f64", "llvm.fabs.f64"]

def isReserved (name : String) : Bool := name.toList.take 5 == ['l', 'l', 'v', 'm', '.']

inductive Global where
  | define (f : NativeFunction)
  | declare (d : Declaration)
  deriving DecidableEq

namespace Global

def name : Global → String
  | define f => f.name
  | declare d => d.name

def arity : Global → Nat
  | define _ => 0
  | declare d => d.arity

def text : Global → String
  | define f => f.text
  | declare d => d.text

end Global

/-- The unit begun last, with what was named before it and what was declared since. Instructions go
    to its end once that place was chosen. -/
structure NativeModule where
  earlier : List Global
  unit : Option NativeFunction
  declarations : List Declaration
  positioned : Bool
  deriving DecidableEq

namespace NativeModule

def empty : NativeModule := ⟨[], none, [], false⟩

def globals (m : NativeModule) : List Global :=
  m.earlier ++ m.unit.toList.map .define ++ m.declarations.map .declare

def arity? (m : NativeModule) (name : String) : Option Nat :=
  (m.globals.find? (·.name == name)).map (·.arity)

/-- Finds or adds the declaration for a call: the name that the call uses, and the number of
    parameters. A unit does not call itself. -/
def declare (name : String) (count : Nat) : Step NativeModule (String × Nat) := do
  let m ← get
  let callee := (intrinsic? name).getD name
  let external := (intrinsic? name).isNone
  match m.arity? callee with
  | some arity =>
    if external && (arity ≠ count || m.unit.any (·.name == name)) then
      throw (.backend (.wrongArgumentCount name count))
    return (callee, arity)
  | none =>
    let added : Declaration := ⟨callee, count, external⟩
    set { m with declarations := m.declarations ++ [added] }
    return (callee, count)

def target? (m : NativeModule) : Except Fault NativeFunction :=
  match m.unit with
  | some f => if m.positioned then .ok f else .error .notPositioned
  | none => .error .notPositioned

def append (i : NativeInstr) : Step NativeModule Unit := do
  let m ← get
  let f ← m.target?
  set { m with unit := some { f with body := f.body ++ [i] } }

def emit (stem : Stem) (i : ResultName → NativeInstr) : Step NativeModule Operand := do
  let m ← get
  let f ← m.target?
  append (i (f.freshName stem))
  return .result (f.freshName stem)

/-- Whether a body ends with its only return, uses no result before it is there, and calls functions
    with as many arguments as they have parameters. -/
def isClosed (m : NativeModule) : List ResultName → List NativeInstr → Bool
  | _, [] => false
  | known, i :: rest =>
    let used := i.operands.all fun
      | .const _ => true
      | .result name => known.contains name
    let called := match i with
      | .call _ callee args => m.arity? callee == some args.length
      | _ => true
    used && called
      && (if i.isReturn then rest.isEmpty else m.isClosed (i.dest?.toList ++ known) rest)

/-- Whether code can be made: units are closed and have no reserved names, and intrinsics have one
    parameter. -/
def isValid (m : NativeModule) : Bool :=
  m.globals.all fun
    | .define f => !isReserved f.name && m.isClosed [] f.body
    | .declare d => !intrinsics.contains d.name || d.arity == 1

def externals (m : NativeModule) : List String :=
  m.globals.filterMap fun
    | .define _ => none
    | .declare d => if d.external then some d.name else none

def functions (m : NativeModule) : List NativeFunction :=
  m.globals.filterMap fun
    | .define f => some f
    | .declare _ => none

def text (m : NativeModule) : String :=
  "; ModuleID = \"calc\"\ntarget triple = \"unknown-unknown-unknown\"\n"
    ++ "target datalayout = \"\"\n\n" ++ "\n".intercalate (m.globals.map (·.text))

end NativeModule

/-- Values of results, the latest first. -/
abbrev Results := List (ResultName × Float)

def Results.get (rs : Results) : Operand → Float
  | .const value => value
  | .result name => (rs.lookup name).getD Number.notANumber

/-- IEEE arithmetic. -/
def arithmetic : Operator → Float → Float → Float
  | .add => (· + ·)
  | .subtract => (· - ·)
  | .multiply => (· * ·)
  | .divide => (· / ·)

/-- Values of units, the latest first. -/
abbrev UnitValues := List (String × Float)

def callNative (c : Elementary) (units : UnitValues) (callee : String) (args : List Float) :
    Float :=
  let symbol :=
    if callee == "llvm.sqrt.f64" then "sqrt"
    else if callee == "llvm.fabs.f64" then "fabs"
    else callee
  match units.lookup callee, Math.native? c symbol with
  | some value, _ => value
  | none, some f => f args
  | none, none => Number.notANumber

def runBody (c : Elementary) (units : UnitValues) : Results → List NativeInstr → Float
  | _, [] => Number.notANumber
  | rs, .binary op dest left right :: rest =>
    runBody c units ((dest, arithmetic op (rs.get left) (rs.get right)) :: rs) rest
  | rs, .call dest callee args :: rest =>
    runBody c units ((dest, callNative c units callee (args.map rs.get)) :: rs) rest
  | rs, .ret value :: _ => rs.get value

/-- The values of all units; each may call those before it. -/
def NativeModule.unitValues (c : Elementary) (m : NativeModule) : UnitValues :=
  m.functions.foldl (fun units f => (f.name, runBody c units [] f.body) :: units) []

structure NativeUnit where
  name : String
  code : NativeModule
  level : Int

namespace NativeUnit

def text (u : NativeUnit) : String := u.code.text

def run (c : Elementary) (u : NativeUnit) : Float :=
  ((u.code.unitValues c).lookup u.name).getD Number.notANumber

/-- The address of the code differs from run to run and is not shown. -/
def display (u : NativeUnit) : String := "<JitFunction " ++ u.name ++ " at ADDR>"

def notice (u : NativeUnit) : String :=
  "jit compiled " ++ u.name ++ " at ADDR (opt=" ++ toString u.level ++ ")"

end NativeUnit

namespace NativeModule

/-- Makes the code of the unit: the module has to be valid, its external symbols have to exist, and
    the unit has to be found in it. -/
def finish (c : Elementary) (level : Int) (name : String) (m : NativeModule) :
    Except Fault NativeUnit := do
  if !m.isValid then throw (.backend .invalidModule)
  if let some symbol := m.externals.find? fun symbol => (Math.native? c symbol).isNone then
    throw (.backend (.noLibrarySymbol symbol))
  if !name.toList.all fun c => c.toNat < 0x80 then throw (.nameNotAscii name)
  if m.functions.all (·.name != name) then throw (.backend (.noCode name))
  return ⟨name, m, level⟩

def target (c : Elementary) (level : Int) : Target NativeModule Operand NativeUnit where
  create name _ := do
    let m ← get
    if name = "" || (m.arity? name).isSome then throw (.nameTaken name)
    set (⟨m.globals, some ⟨name, []⟩, [], false⟩ : NativeModule)
  position := do
    let m ← get
    if m.unit.isNone then throw .notPositioned
    set { m with positioned := true }
  const value := return .const value
  binary op left right := emit (.operator op) fun dest => .binary op dest left right
  call name args := do
    let (callee, arity) ← declare name args.length
    let m ← get
    if m.unit.isNone then throw .notPositioned
    if args.length < arity then throw (.missingArgument name)
    emit .call fun dest => .call dest callee args
  ret value := do
    let m ← get
    let f ← m.target?
    if f.hasReturned then throw .returnedBefore
    append (.ret value)
  finalize name := do
    let m ← get
    m.finish c level name

end NativeModule

end ArithCompiler

import ArithCompiler.Backend.Bytecode
import ArithCompiler.Backend.NativeModule
import ArithCompiler.Backend.Recording
import ArithCompiler.Compiler

set_option autoImplicit false

/-!
# Engines

An engine is a target with its fresh state and what can be told of its finished units. Two engines
are known by name.
-/

namespace ArithCompiler

/-- What can be told of a finished unit: the log of a recording, or a text and what calling the unit
    gives. -/
inductive Report where
  | events (log : List Event)
  | code (text : String) (value : Except Math.RunError Float)

structure Engine where
  State : Type
  Value : Type
  Result : Type
  target : Target State Value Result
  initial : State
  notices : Result → List LogEntry
  report : State → Result → Report
  recorded : State → List Event

namespace Engine

open Math (Elementary FunctionTable)

def recording : Engine :=
  ⟨Recording, Handle, List Event, Recording.target, .empty, fun _ => [], fun _ => .events, (·.log)⟩

def missing : Engine :=
  ⟨PUnit, PUnit, PUnit, .missing, ⟨⟩, fun _ => [], fun _ _ => .events [], fun _ => []⟩

def bytecode (functions : FunctionTable) : Engine :=
  ⟨Bytecode, Handle, BytecodeUnit, Bytecode.target, .empty functions, fun _ => [],
    fun b u => .code (b.program u).listing (b.program u).run, fun _ => []⟩

def native (c : Elementary) (level : Int) : Engine :=
  ⟨NativeModule, Operand, NativeUnit, NativeModule.target c level, .empty,
    fun u => [.native u.notice], fun _ u => .code u.text (.ok (u.run c)), fun _ => []⟩

end Engine

inductive EngineKind where
  | native
  | bytecode
  deriving DecidableEq, Repr

namespace EngineKind

def all : List EngineKind := [native, bytecode]

def name : EngineKind → String
  | native => "llvm"
  | bytecode => "bytecode"

def ofName? (name : String) : Option EngineKind := all.find? (·.name == name)

def unknownMessage (name : String) : String :=
  "unknown backend '" ++ name ++ "', expected one of: " ++ ", ".intercalate (all.map (·.name))

/-- Native code has the optimization levels 0 to 3; for bytecode the level means nothing. -/
def checkLevel (kind : EngineKind) (level : Int) : Except BackendError Unit :=
  match kind with
  | bytecode => .ok ()
  | native => if level < 0 ∨ 3 < level then .error (.optimizationLevel level) else .ok ()

def engine (c : Math.Elementary) (level : Int) : EngineKind → Engine
  | native => .native c level
  | bytecode => .bytecode (Math.routines c)

end EngineKind

structure Run where
  outcome : Except Fault Report
  phase : Phase
  residue : Nat
  log : List LogEntry
  recorded : List Event

namespace Engine

variable {φ : Type} [Alien φ]

def compiler (e : Engine) (resolver : Resolver) (imbalance : Imbalance) :
    Compiler e.State e.Value e.Result :=
  ⟨e.target, resolver, imbalance, e.notices⟩

def runOf (e : Engine) (result : Except Fault e.Result × Work e.State e.Value) : Run :=
  ⟨result.1.map (e.report result.2.backend.state), result.2.backend.phase, result.2.stack.length,
    result.2.log, e.recorded result.2.backend.state⟩

def compile (e : Engine) (resolver : Resolver) (imbalance : Imbalance) (t : Tree φ) : Run :=
  e.runOf (((e.compiler resolver imbalance).compile t).runOn (.fresh e.initial))

def compilePhase (e : Engine) (resolver : Resolver) (t : Tree φ) : Run :=
  e.runOf (((e.compiler resolver .balanced).compilePhase t).runOn (.fresh e.initial))

end Engine

end ArithCompiler

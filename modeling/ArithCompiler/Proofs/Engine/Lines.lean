import ArithCompiler.Proofs.Engine.Agreement
import ArithCompiler.Proofs.Native.Modules
import ArithCompiler.Proofs.Recording.Replay

set_option autoImplicit false

/-!
# One program for all engines

The lines of a tree are what every backend is asked for. A recording, the bytecode and the native
code of a tree are its lines under different names, and whatever the functions mean that are called,
all three mean the same.
-/

namespace ArithCompiler

open Math (Elementary FunctionTable)
open Resolver (Resolves)

theorem Bytecode.unit_eq_ok {r : Resolver} {e : Expr} {b b' : Bytecode} {u : BytecodeUnit}
    (h : (target.unit r e).runOn b = (.ok u, b')) :
    Resolves r e ∧ ∀ c ∈ e.calls, (b.functions.get? c.1).isSome := by
  obtain ⟨_, b₁, hopening, h⟩ := Step.runOn_bind_eq_ok h
  obtain ⟨v, b₂, htree, -⟩ := Step.runOn_bind_eq_ok h
  cases hopening
  have hcalls := calls_of_runOn (b := ⟨b.functions, b.earlier ++ [b.code], [], 0⟩) htree
  exact ⟨target.resolves_of_runOn htree, hcalls⟩

namespace Compiler

variable {r : Resolver} {e : Expr}

theorem unit_of_compile {functions : FunctionTable} {notices : BytecodeUnit → List LogEntry}
    {u : BytecodeUnit} {w : Work Bytecode Handle}
    (h : ((⟨Bytecode.target, r, .balanced, notices⟩ :
      Compiler Bytecode Handle BytecodeUnit).compile e).runOn (.fresh (.empty functions))
        = (.ok u, w)) :
    (Bytecode.target.unit r e).runOn (.empty functions) = (.ok u, w.backend.state) := by
  let c : Compiler Bytecode Handle BytecodeUnit := ⟨Bytecode.target, r, .balanced, notices⟩
  obtain ⟨houtcome, hstate⟩ := compile_runOn_idle (c := c) rfl e (.fresh (.empty functions)) rfl
  rw [show ((c.compile e).runOn (.fresh (.empty functions))) = _ from h] at houtcome hstate
  exact Prod.ext houtcome.symm hstate.symm

theorem bytecode_of_compile {functions : FunctionTable} {notices : BytecodeUnit → List LogEntry}
    {u : BytecodeUnit} {w : Work Bytecode Handle}
    (h : ((⟨Bytecode.target, r, .balanced, notices⟩ :
      Compiler Bytecode Handle BytecodeUnit).compile e).runOn (.fresh (.empty functions))
        = (.ok u, w)) :
    w.backend.state.program u = ⟨entryPoint, Bytecode.unitCode r e, functions⟩ := by
  have hunit := unit_of_compile h
  obtain ⟨hresolves, hcalls⟩ := Bytecode.unit_eq_ok hunit
  rw [Bytecode.unit_runOn hresolves hcalls] at hunit
  obtain ⟨hu, hb⟩ := Prod.mk.inj hunit
  rw [← hb, ← Except.ok.inj hu]
  rfl

theorem exists_unit {functions : FunctionTable} (notices : BytecodeUnit → List LogEntry)
    (h : Resolves r e) (hcalls : ∀ q ∈ e.calls, (functions.get? q.1).isSome) :
    ∃ u w, ((⟨Bytecode.target, r, .balanced, notices⟩ :
      Compiler Bytecode Handle BytecodeUnit).compile e).runOn (.fresh (.empty functions))
        = (.ok u, w) := by
  let c : Compiler Bytecode Handle BytecodeUnit := ⟨Bytecode.target, r, .balanced, notices⟩
  obtain ⟨houtcome, -⟩ := compile_runOn_idle (c := c) rfl e (.fresh (.empty functions)) rfl
  have hunit := congrArg Prod.fst (Bytecode.unit_runOn h (b := .empty functions) hcalls)
  exact ⟨_, ((c.compile e).runOn (.fresh (.empty functions))).2,
    Prod.ext (houtcome.trans hunit) rfl⟩

theorem native_of_compile {m : Elementary} {level : Int} {notices : NativeUnit → List LogEntry}
    {u : NativeUnit} {w : Work NativeModule Operand}
    (h : ((⟨NativeModule.target m level, r, .balanced, notices⟩ :
      Compiler NativeModule Operand NativeUnit).compile e).runOn (.fresh .empty) = (.ok u, w)) :
    let body := NativeModule.unitBody (e.lines r.value 0) e.inner
    u.name = entryPoint ∧ u.code.functions = [⟨entryPoint, body⟩] ∧
      runBodyUnder (fun callee args => .ok (Math.symbol m (NativeModule.symbolName callee) args)) []
        body = .ok (u.run m) := by
  intro body
  let c : Compiler NativeModule Operand NativeUnit :=
    ⟨NativeModule.target m level, r, .balanced, notices⟩
  obtain ⟨houtcome, hstate⟩ := compile_runOn_idle (c := c) rfl e (.fresh .empty) rfl
  rw [show ((c.compile e).runOn (.fresh .empty)) = _ from h] at houtcome hstate
  have hunit : ((NativeModule.target m level).unit r e).runOn .empty = (.ok u, w.backend.state) :=
    Prod.ext houtcome.symm hstate.symm
  obtain ⟨hname, declarations, hcode⟩ := NativeModule.unit_eq_ok m level hunit
  have hfunctions : u.code.functions = [⟨entryPoint, body⟩] := by
    rw [hcode, NativeModule.functions_filling]
  refine ⟨hname, hfunctions, ?_⟩
  rw [NativeModule.runBodyUnder_symbol, u.run_of_functions m (hname ▸ hfunctions)]

theorem functions_of_filled {m : Elementary} {level : Int} {notices : NativeUnit → List LogEntry}
    {outcome : Except Fault NativeUnit} {w : Work NativeModule Operand}
    (h : ((⟨NativeModule.target m level, r, .balanced, notices⟩ :
      Compiler NativeModule Operand NativeUnit).compile e).runOn (.fresh .empty) = (outcome, w))
    (hphase : w.backend.phase = .returned ∨ w.backend.phase = .finalized) :
    w.backend.state.functions
      = [⟨entryPoint, NativeModule.unitBody (e.lines r.value 0) e.inner⟩] := by
  obtain ⟨-, declarations, -, hstate, -⟩ := NativeModule.compile_filled m level h hphase
  rw [hstate, NativeModule.functions_filling]

/-- Every compilation of a tree that comes to its end has asked its backend for the opening of a
    unit, for one operation a node in the order in which the lines are, and for the closing. A
    recording, the bytecode and the native code of the tree are these lines, and native code is so
    whether or not the library has the symbols that are called: registers are named by the places of
    the lines, and results of native code so that no two lines have the same. By any functions for
    the names that are called, they have the value of the tree. -/
theorem compile_lines (r : Resolver) (e : Expr) :
    let ls := e.lines r.value 0
    (∀ {σ ν υ : Type} [Inhabited ν] {c : Compiler σ ν υ}, c.resolver = r →
      c.imbalance = .balanced → ∀ (w : Work σ ν) (u : υ) (b : Backend σ),
        (∃ log, (c.compile e).runOn w = (.ok u, ⟨b, [], log⟩)) ↔
          Resolves r e ∧ ∃ hs, hs.length = e.inner + 1 ∧
            Backend.Grants c.target w.backend (Backend.unitGrants ls e.inner hs u) b) ∧
    (Resolves r e → (Engine.recording.compile r .balanced e).outcome
      = .ok (.events (Recording.unitLog ls e.inner))) ∧
    (∀ functions notices u w,
      ((⟨Bytecode.target, r, .balanced, notices⟩ :
        Compiler Bytecode Handle BytecodeUnit).compile e).runOn (.fresh (.empty functions))
          = (.ok u, w) →
        w.backend.state.program u
          = ⟨entryPoint, Bytecode.instrs 0 ls ++ [.ret e.inner], functions⟩) ∧
    (∀ m level notices outcome w,
      ((⟨NativeModule.target m level, r, .balanced, notices⟩ :
        Compiler NativeModule Operand NativeUnit).compile e).runOn (.fresh .empty)
          = (outcome, w) →
        (w.backend.phase = .returned ∨ w.backend.phase = .finalized →
          w.backend.state.functions = [⟨entryPoint, NativeModule.unitBody ls e.inner⟩]) ∧
        ∀ u, outcome = .ok u → u.name = entryPoint ∧
          u.code.functions = [⟨entryPoint, NativeModule.unitBody ls e.inner⟩] ∧
          runBodyUnder (fun callee args =>
              .ok (Math.symbol m (NativeModule.symbolName callee) args)) []
            (NativeModule.unitBody ls e.inner) = .ok (u.run m)) ∧
    (∀ i j name, i < ls.length → j < ls.length → NativeModule.operandAt ls i = .result name →
      NativeModule.operandAt ls j = .result name → i = j) ∧
    ∀ functions, (∀ q ∈ e.calls, NativeModule.Interprets functions q.1) →
      let value := (evaluation r.value functions).tree e
      Recording.replay (evaluation r.value functions) (.error .undefinedRegister) []
          (Recording.unitLog ls e.inner) = value ∧
        Program.run ⟨entryPoint, Bytecode.instrs 0 ls ++ [.ret e.inner], functions⟩ = value ∧
        runBodyUnder (NativeModule.invokeSymbol functions) []
          (NativeModule.unitBody ls e.inner) = value := by
  intro ls
  refine ⟨?_, Engine.recording_outcome, fun functions notices u w => bytecode_of_compile,
    fun m level notices outcome w hrun => ⟨functions_of_filled hrun, ?_⟩,
    fun i j name hi hj => NativeModule.operandAt_injective hi hj, fun functions h => ?_⟩
  · rintro σ ν υ _ c rfl hc w u b
    exact compile_eq_ok_iff hc e w u b
  · rintro u rfl
    exact native_of_compile hrun
  · have hnaming : (evaluation r.value functions).naming r.value
        = evaluation r.value functions := rfl
    refine ⟨?_, Bytecode.run_unitCode functions entryPoint r e,
      NativeModule.runBodyUnder_unitBody h⟩
    rw [Recording.replay_unitLog, hnaming]

/-- An intrinsic is called, and a function that not every library has; two constants have no
    instruction. -/
theorem compile_lines_sqrt_plus_sinh :
    let r := Resolver.scope ⟨[("x", 4.0)], [("sqrt", 1), ("sinh", 1)]⟩
    let e : Expr := .binary .add (.call "sqrt" [.name "x"]) (.call "sinh" [.number 1.0])
    let compiler : Compiler NativeModule Operand NativeUnit :=
      ⟨NativeModule.target .platform 0, r, .balanced, fun _ => []⟩
    let run := (compiler.compile e).runOn (.fresh .empty)
    let functions : FunctionTable := [Math.unary "sqrt" Float.sqrt, Math.unary "sinh" Float.sinh]
    let code : List Instr :=
      [.const 0 4.0, .call 1 "sqrt" [0], .const 2 1.0, .call 3 "sinh" [2], .binary .add 4 1 3,
        .ret 4]
    let body : List NativeInstr :=
      [.call ⟨.call, 0⟩ "llvm.sqrt.f64" [.const 4.0], .call ⟨.call, 1⟩ "sinh" [.const 1.0],
        .binary .add ⟨.operator .add, 0⟩ (.result ⟨.call, 0⟩) (.result ⟨.call, 1⟩),
        .ret (.result ⟨.operator .add, 0⟩)]
    run.2.backend.phase = .finalized ∧
      run.2.backend.state.functions = [⟨entryPoint, body⟩] ∧
      runBodyUnder (NativeModule.invokeSymbol functions) [] body
        = Program.run ⟨entryPoint, code, functions⟩ := by
  intro r e compiler run functions code body
  obtain ⟨-, -, -, hnative, -, hvalue⟩ := compile_lines r e
  have hphase : run.2.backend.phase = .finalized := by decide +kernel
  have hrun : run = (run.1, run.2) := Prod.mk.eta.symm
  obtain ⟨hfunctions, -⟩ := hnative .platform 0 (fun _ => []) run.1 run.2 hrun
  have hinterprets : ∀ q ∈ e.calls, NativeModule.Interprets functions q.1 := by
    refine List.forall_mem_cons.2 ⟨?_, List.forall_mem_singleton.2 ?_⟩
    · exact ⟨rfl, fun hmem => absurd hmem (by decide)⟩
    · exact ⟨rfl, fun hmem => absurd hmem (by decide)⟩
  obtain ⟨-, hcode, hbody⟩ := hvalue functions hinterprets
  exact ⟨hphase, hfunctions (.inr hphase), hbody.trans hcode.symm⟩

end Compiler

end ArithCompiler

import ArithCompiler.Proofs.Bytecode.Finished
import ArithCompiler.Proofs.Engine.Lines
import ArithCompiler.Proofs.Math.Host

set_option autoImplicit false

/-!
# Units that give a number

The code of a tree is well formed, and each function it calls is called with as many arguments as it
takes. So its run over the library of the interpreter comes to its return, on every host that raises
only what hosts are documented to raise.
-/

namespace ArithCompiler

open Math (Elementary Primitives Raised)
open Resolver (Resolves)

namespace Math.Primitives

variable (p : Primitives)

def invoke (name : String) (args : List Float) : Except Raised Float :=
  match p.library.get? name with
  | some f => f args
  | none => .error (.program (.undefinedFunction name))

def compute (i : Instr) (regs : Registers) : Except Raised Float :=
  match i.opcode with
  | .const => .ok i.value
  | .binary op => do
    let a ← Raised.ofRun (do regs.read (← Program.operand i 0))
    let b ← Raised.ofRun (do regs.read (← Program.operand i 1))
    p.apply op a b
  | .call => do
    let args ← Raised.ofRun (i.operands.mapM regs.read)
    p.invoke i.callee args
  | .ret => Raised.ofRun (do regs.read (← Program.operand i 0))
  | .other opcode => .error (.program (.unknownOpcode opcode))

def exec (unit : String) : List Instr → Registers → Except Raised Float
  | [], _ => .error (.program (.noReturn unit))
  | i :: rest, regs => do
    let v ← p.compute i regs
    if i.opcode = .ret then return v else exec unit rest (regs.write i.dest v)

def run (program : Program) : Except Raised Float := p.exec program.name program.code []

end Math.Primitives

/-! ## The host of the routines -/

theorem Math.Raised.ofRun_bind {α β : Type} (x : Except RunError α) (f : α → Except RunError β) :
    ofRun (x >>= f) = ofRun x >>= fun a => ofRun (f a) := by
  cases x <;> rfl

namespace Math

variable (c : Elementary)

theorem host_invoke (name : String) (args : List Float) :
    c.host.invoke name args = Raised.ofRun (Program.invoke (routines c) name args) := by
  rw [Primitives.invoke, Program.invoke, host_library, Bindings.get?_map]
  cases (routines c).get? name <;> rfl

theorem host_compute (i : Instr) (regs : Registers) :
    c.host.compute i regs = Raised.ofRun (Program.compute (routines c) i regs) := by
  rw [Primitives.compute, Program.compute]
  cases h : i.opcode with
  | const | ret | other => rfl
  | binary op =>
    simp only [host_apply, Raised.ofRun_bind, bind_assoc]
    rfl
  | call => simp only [host_invoke, Raised.ofRun_bind]

/-- Running a program over the routines is running it on their host. -/
theorem host_run {program : Program} (h : program.functions = routines c) :
    c.host.run program = Raised.ofRun program.run := by
  obtain ⟨unit, code, functions⟩ := program
  obtain rfl : functions = routines c := h
  suffices ∀ regs, c.host.exec unit code regs
      = Raised.ofRun (Program.exec unit (routines c) code regs) from this []
  induction code with
  | nil => exact fun _ => rfl
  | cons i rest ih =>
    intro regs
    rw [Primitives.exec, Program.exec_cons, Raised.ofRun_bind, host_compute]
    refine bind_congr fun v => ?_
    by_cases hi : i.opcode = .ret
    · rw [if_pos hi, if_pos hi]
      rfl
    · rw [if_neg hi, if_neg hi]
      exact ih _

end Math

/-! ## Well-formed programs -/

def Program.CallsLibrary (p : Program) : Prop :=
  ∀ i ∈ p.code, i.opcode = .call → (i.callee, (i.operands.length : Int)) ∈ Math.arities

namespace Math.Primitives.Documented

variable {p : Primitives} (h : p.Documented)
include h

theorem invoke {name : String} {args : List Float} (hname : (name, (args.length : Int)) ∈ arities) :
    ∃ v, p.invoke name args = .ok v := by
  obtain ⟨n, harity, f, hf, hvalue⟩ := h.library_returns hname
  rw [Primitives.invoke, hf]
  exact hvalue args (Int.ofNat.inj harity)

theorem compute {i : Instr} {functions : FunctionTable} {regs : Registers}
    (hi : i.Ready functions regs)
    (hcall : i.opcode = .call → (i.callee, (i.operands.length : Int)) ∈ arities) :
    ∃ v, p.compute i regs = .ok v := by
  have takes := hi.takes
  rw [Primitives.compute]
  cases hopcode : i.opcode with
  | const => exact ⟨_, rfl⟩
  | other opcode =>
    rw [hopcode] at takes
    exact takes.elim
  | ret =>
    rw [hopcode] at takes
    obtain ⟨r, v, hfirst, hv⟩ := hi.read_operand (k := 0) (by rw [takes]; decide)
    refine ⟨v, ?_⟩
    simp only [hfirst]
    exact congrArg Raised.ofRun hv
  | binary op =>
    rw [hopcode] at takes
    obtain ⟨l, a, hleft, ha⟩ := hi.read_operand (k := 0) (by rw [takes]; decide)
    obtain ⟨r, b, hright, hb⟩ := hi.read_operand (k := 1) (by rw [takes]; decide)
    obtain ⟨v, hv⟩ := h.apply op a b
    refine ⟨v, ?_⟩
    simp only [hleft, hright]
    change (Raised.ofRun (regs.read l) >>= fun a =>
      Raised.ofRun (regs.read r) >>= fun b => p.apply op a b) = _
    rw [ha, hb]
    exact hv
  | call =>
    obtain ⟨args, hargs, hlength⟩ := Registers.mapM_read hi.reads
    have hname := hcall hopcode
    rw [← hlength] at hname
    obtain ⟨v, hv⟩ := h.invoke hname
    refine ⟨v, ?_⟩
    simp only [hargs]
    exact hv

/-- By induction on the code that is left, with the registers of the places before it written. -/
theorem exec {program : Program} (hwell : program.WellFormed) (hcalls : program.CallsLibrary)
    {before code : List Instr} {regs : Registers} (hcode : program.code = before ++ code)
    (hne : code ≠ []) (hwritten : ∀ k < before.length, ∃ v, regs.read (k : Int) = .ok v) :
    ∃ v, p.exec program.name code regs = .ok v := by
  induction code generalizing before regs with
  | nil => exact absurd rfl hne
  | cons i rest ih =>
    have hmem : i ∈ program.code := by
      rw [hcode]
      exact List.mem_append_right _ List.mem_cons_self
    obtain ⟨v, hv⟩ := h.compute (hwell.ready_of_written hcode hwritten) (hcalls i hmem)
    rw [Primitives.exec, hv]
    by_cases hi : i.opcode = .ret
    · exact ⟨v, if_pos hi⟩
    · obtain ⟨hrest, hnext⟩ := hwell.written_next hcode hwritten hi v
      have hafter : program.code = (before ++ [i]) ++ rest := by
        rw [hcode, List.append_assoc]
        rfl
      obtain ⟨w, hw⟩ := ih hafter hrest hnext
      exact ⟨w, (if_neg hi).trans hw⟩

theorem run {program : Program} (hwell : program.WellFormed) (hcalls : program.CallsLibrary) :
    ∃ v, p.run program = .ok v :=
  h.exec hwell hcalls (List.nil_append _).symm hwell.nonempty nofun

end Math.Primitives.Documented

/-! ## The code of trees -/

namespace Bytecode

variable {s : Scope} (hs : ∀ q ∈ s.functions, q ∈ Math.arities) {e : Expr}
include hs

theorem unitCode_wellFormed (c : Elementary) (h : Resolves (.scope s) e) :
    Program.WellFormed ⟨entryPoint, unitCode (.scope s) e, Math.routines c⟩ := by
  have hrunnable : Runnable (Math.routines c) (e.lines (Resolver.scope s).value 0) := by
    refine ⟨Tree.ordered_lines _ 0 e, fun q hq => ?_⟩
    rw [Tree.lines_calls] at hq
    exact Math.routines_isSome c _ (Scope.library_calls hs h q hq)
  refine hrunnable.wellFormed entryPoint ?_
  rw [Tree.lines_length]
  exact Nat.lt_succ_self _

theorem unitCode_callsLibrary (c : Elementary) (h : Resolves (.scope s) e) :
    Program.CallsLibrary ⟨entryPoint, unitCode (.scope s) e, Math.routines c⟩ := by
  intro i hi hcall
  rcases mem_returned hi with ⟨k, l, hl, rfl⟩ | rfl
  · have hmem := List.mem_filterMap.2 ⟨l, hl, Line.call?_of_opcode hcall⟩
    rw [Tree.lines_calls] at hmem
    rw [Line.instr_operands, List.length_map]
    exact Scope.library_calls hs h _ hmem
  · cases hcall

/-- The code of a tree gives a number on every host, that of the routines included. -/
theorem run_unitCode_returns (c : Elementary) (h : Resolves (.scope s) e) :
    let program : Program := ⟨entryPoint, unitCode (.scope s) e, Math.routines c⟩
    (∃ v, program.run = .ok v ∧ c.host.run program = .ok v) ∧
      ∀ p : Primitives, p.Documented → ∃ v, p.run program = .ok v := by
  intro program
  have hreturns : ∀ p : Primitives, p.Documented → ∃ v, p.run program = .ok v := fun p hp =>
    hp.run (unitCode_wellFormed hs c h) (unitCode_callsLibrary hs c h)
  refine ⟨?_, hreturns⟩
  obtain ⟨v, hv⟩ := hreturns c.host (Math.host_documented c)
  refine ⟨v, ?_, hv⟩
  rw [Math.host_run c rfl] at hv
  cases hrun : program.run with
  | ok w =>
    rw [hrun] at hv
    cases hv
    rfl
  | error r =>
    rw [hrun] at hv
    cases hv

end Bytecode

theorem EngineKind.compile_gives (kind : EngineKind) (c : Elementary) (level : Int) {s : Scope}
    (hs : ∀ q ∈ s.functions, q ∈ Math.arities) {e : Expr} (h : Resolves (.scope s) e) :
    ∃ text v, ((kind.engine c level).compile (.scope s) .balanced e).outcome
      = .ok (.code text (.ok v)) := by
  cases kind with
  | native =>
    obtain ⟨text, v, houtcome, -⟩ := Engine.native_outcome c level hs h
    exact ⟨text, v, houtcome⟩
  | bytecode =>
    obtain ⟨⟨v, hrun, -⟩, -⟩ := Bytecode.run_unitCode_returns hs c h
    have hcheck : (Resolver.scope s).checking.tree e = .ok () := Resolver.check_of_resolves h
    let program : Program := ⟨entryPoint, Bytecode.unitCode (.scope s) e, Math.routines c⟩
    refine ⟨program.listing, v, ?_⟩
    rw [engine, Engine.bytecode_outcome, Bytecode.checking_library hs, hcheck, ← hrun]
    rfl

/-- A unit that was compiled in the scope of the library, with any constants besides, gives a number
    when it is called. Nothing is raised on any host that raises only what it is documented to. -/
theorem Compiler.unit_returns (c : Elementary) (pairs : List (String × Float))
    (notices : BytecodeUnit → List LogEntry) (e : Expr) {u : BytecodeUnit}
    {w : Work Bytecode Handle}
    (h : ((⟨Bytecode.target, .scope (Scope.math.defineAll pairs), .balanced, notices⟩ :
      Compiler Bytecode Handle BytecodeUnit).compile e).runOn (.fresh (.empty (Math.routines c)))
        = (.ok u, w)) :
    let program := w.backend.state.program u
    (∃ v, program.run = .ok v ∧ c.host.run program = .ok v) ∧
      ∀ p : Primitives, p.Documented → ∃ v, p.run program = .ok v := by
  intro program
  obtain ⟨hresolves, -⟩ := Bytecode.unit_eq_ok (unit_of_compile h)
  have hprogram : program
      = ⟨entryPoint, Bytecode.unitCode (.scope (Scope.math.defineAll pairs)) e, Math.routines c⟩ :=
    bytecode_of_compile h
  rw [hprogram]
  exact Bytecode.run_unitCode_returns (fun _ hq => hq) c hresolves

/-- A pole over a zero, and a remainder of an infinity by a zero: each primitive would raise. -/
theorem Compiler.unit_returns_pole_over_zero :
    let e : Expr := .binary .add
      (.binary .divide (.call "log" [.name "x"]) (.call "ceil" [.number (-0.5)]))
      (.call "fmod" [.name "inf", .name "x"])
    let compiler : Compiler Bytecode Handle BytecodeUnit :=
      ⟨Bytecode.target, .scope (Scope.math.defineAll [("x", -0.0)]), .balanced, fun _ => []⟩
    ∃ u w, (compiler.compile e).runOn (.fresh (.empty (Math.routines Engine.constant)))
        = (.ok u, w) ∧ Engine.constant.host.Documented ∧
      ∃ v, (w.backend.state.program u).run = .ok v ∧
        Engine.constant.host.run (w.backend.state.program u) = .ok v := by
  intro e compiler
  have hresolves : Resolves compiler.resolver e := Resolver.resolves_scope_iff.2 (by decide)
  obtain ⟨u, w, hcompile⟩ := exists_unit (fun _ => []) hresolves fun q hq =>
      Math.routines_isSome _ _ (Scope.library_calls (fun _ hmem => hmem) hresolves q hq)
  obtain ⟨hvalue, -⟩ := Compiler.unit_returns Engine.constant [("x", -0.0)] (fun _ => []) e hcompile
  exact ⟨u, w, hcompile, Math.host_documented _, hvalue⟩

end ArithCompiler

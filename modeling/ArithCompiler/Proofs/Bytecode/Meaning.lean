import ArithCompiler.Proofs.Bytecode.Code
import ArithCompiler.Proofs.Compiler.Phases

set_option autoImplicit false

/-!
# What a program computes

Running the code of a tree computes what an evaluator computes that goes through the tree itself:
operands and arguments from left to right, IEEE arithmetic with a division that never fails, and the
functions of a table, the first fault of which ends it.
-/

namespace ArithCompiler

open Math (FunctionTable RunError)
open Number (isNegative negativeInfinity notANumber positiveInfinity withSignOf)
open Resolver (Resolves)

mutual
/-- The value of a tree, or the first fault of a function. -/
def Scope.evaluate (s : Scope) (functions : FunctionTable) : Expr → Except RunError Float
  | .number v => .ok v
  | .name x => .ok ((s.constants.get? x).getD notANumber)
  | .binary .add l r => do
    let a ← s.evaluate functions l
    let b ← s.evaluate functions r
    return a + b
  | .binary .subtract l r => do
    let a ← s.evaluate functions l
    let b ← s.evaluate functions r
    return a - b
  | .binary .multiply l r => do
    let a ← s.evaluate functions l
    let b ← s.evaluate functions r
    return a * b
  | .binary .divide l r => do
    let a ← s.evaluate functions l
    let b ← s.evaluate functions r
    -- by zero it is an infinity that has a minus if just one of the operands has
    if b == 0.0 then
      if a == 0.0 || a.isNaN then return notANumber
      else if isNegative a == isNegative b then return positiveInfinity
      else return negativeInfinity
    else return a / b
  | .call f args => do
    let vs ← s.evaluateAll functions args
    match functions.get? f with
    | some routine => routine vs
    | none => .error (.undefinedFunction f)
  | .foreign x => nomatch x

def Scope.evaluateAll (s : Scope) (functions : FunctionTable) :
    List Expr → Except RunError (List Float)
  | [] => return []
  | e :: es => do
    let v ← s.evaluate functions e
    let vs ← s.evaluateAll functions es
    return v :: vs
end

def evaluation (value : String → Float) (functions : FunctionTable) :
    Operations (Except RunError) Float where
  number v := .ok v
  name x := .ok (value x)
  binary op a b := .ok (op.apply a b)
  enter _ := .ok ()
  call f args := Program.invoke functions f args

theorem quotient_eq_signs (a b : Float) : Math.quotient a b =
    if b == 0.0 then
      if a == 0.0 || a.isNaN then notANumber
      else if isNegative a == isNegative b then positiveInfinity
      else negativeInfinity
    else a / b := by
  have hsigns : withSignOf positiveInfinity a * withSignOf 1.0 b
      = if isNegative a == isNegative b then positiveInfinity else negativeInfinity := by
    unfold withSignOf
    cases isNegative a <;> cases isNegative b <;> decide
  rw [Math.quotient, hsigns]

/-- The interpreter evaluates each node as the evaluator does. -/
theorem Scope.evaluate_eq_tree (s : Scope) (functions : FunctionTable) (e : Expr) :
    s.evaluate functions e = (evaluation (Resolver.scope s).value functions).tree e := by
  induction e using Tree.exprInduction with
  | number v => rfl
  | name x => rfl
  | binary op l r ihl ihr =>
    rw [Operations.tree, ← ihl, ← ihr]
    cases op with
    | add | subtract | multiply => rw [Scope.evaluate]; rfl
    | divide =>
      rw [Scope.evaluate]
      refine bind_congr fun a => bind_congr fun b => ?_
      change _ = Except.ok (Math.quotient a b)
      rw [quotient_eq_signs]
      split
      · split
        · rfl
        · split <;> rfl
      · rfl
  | call f args ih =>
    have hargs : s.evaluateAll functions args
        = (evaluation (Resolver.scope s).value functions).trees args := by
      induction args with
      | nil => rfl
      | cons a args ihargs =>
        rw [Scope.evaluateAll, Operations.trees, ih a List.mem_cons_self,
          ihargs fun b hb => ih b (List.mem_cons_of_mem _ hb)]
    rw [Scope.evaluate, Operations.tree, hargs]
    rfl

theorem evaluation_plain (value : String → Float) (functions : FunctionTable) :
    (evaluation value functions).Plain value := ⟨fun _ => rfl, fun _ => rfl⟩

namespace Bytecode

def Holds (regs : Registers) (vs : List Float) : Prop :=
  ∀ i < vs.length, regs.read i = .ok (pick vs i)

variable {regs : Registers} {vs : List Float}

theorem Holds.write (h : Holds regs vs) (v : Float) :
    Holds (regs.write (some (vs.length : Int)) v) (vs ++ [v]) := by
  refine forall_place_concat (P := fun (i : Nat) x =>
    (regs.write (some (vs.length : Int)) v).read i = .ok x) (fun i hi => ?_) ?_
  · rw [Registers.read_write_of_ne regs (by omega), h i hi]
  · exact Registers.read_write_self regs vs.length v

theorem Holds.mapM_read (h : Holds regs vs) {is : List Nat} (his : ∀ i ∈ is, i < vs.length) :
    (is.map Int.ofNat).mapM regs.read = .ok (is.map (pick vs)) := by
  induction is with
  | nil => rfl
  | cons i is ih =>
    have hi := h i (his i List.mem_cons_self)
    rw [List.map_cons, List.mapM_cons, show regs.read (Int.ofNat i) = _ from hi,
      ih fun j hj => his j (List.mem_cons_of_mem _ hj)]
    rfl

variable (value : String → Float) (functions : FunctionTable) (unit : String)

theorem exec_instr (h : Holds regs vs) {l : Line} (hl : ∀ i ∈ l.operands, i < vs.length)
    (rest : List Instr) :
    Program.exec unit functions (l.instr vs.length :: rest) regs
      = (evaluation value functions).line vs l >>= fun v =>
          Program.exec unit functions rest (regs.write (some (vs.length : Int)) v) := by
  cases l with
  | const v => rfl
  | binary op i j =>
    have hi := h i (hl i (by simp [Line.operands]))
    have hj := h j (hl j (by simp [Line.operands]))
    rw [Line.instr, Program.exec]
    simp only [Instr.binary, Program.operand, List.getElem?_cons_zero, List.getElem?_cons_succ]
    change (regs.read i >>= fun a => regs.read j >>= fun b =>
      Program.exec unit functions rest (regs.write (some (vs.length : Int)) (op.apply a b))) = _
    rw [hi, hj]
    rfl
  | call f is =>
    have hargs : ∀ i ∈ is, i < vs.length := hl
    rw [Line.instr, Program.exec]
    simp only [Instr.call]
    rw [h.mapM_read hargs]
    rfl

theorem exec_instrs (h : Holds regs vs) {ls : List Line} (hls : Tree.Ordered vs.length ls)
    {result : Nat} (hresult : result < vs.length + ls.length) :
    Program.exec unit functions (instrs vs.length ls ++ [.ret result]) regs
      = (pick · result) <$> (evaluation value functions).play ls vs := by
  induction ls generalizing regs vs with
  | nil =>
    change (do regs.read result) = _
    rw [h result (by simpa using hresult)]
    rfl
  | cons l ls ih =>
    rw [instrs, List.cons_append, exec_instr value functions unit h hls.1, Operations.play,
      map_bind]
    refine bind_congr fun v => ?_
    have hlength : (vs ++ [v]).length = vs.length + 1 := List.length_append
    have hrest := ih (h.write v) (by rw [hlength]; exact hls.2)
      (by rw [hlength]; rw [List.length_cons] at hresult; omega)
    rw [hlength] at hrest
    exact hrest

theorem run_unitCode (r : Resolver) (e : Expr) :
    Program.run ⟨unit, unitCode r e, functions⟩ = (evaluation r.value functions).tree e := by
  rw [Operations.tree_eq_play (evaluation_plain r.value functions) e []]
  have hnone : Holds [] [] := nofun
  have hresult : e.inner < ([] : List Float).length + (e.lines r.value 0).length := by
    rw [Tree.lines_length, List.length_nil]
    omega
  have h := exec_instrs r.value functions unit hnone (Tree.ordered_lines r.value 0 e) hresult
  simpa [Program.run, unitCode] using h

end Bytecode

/-! ## Compiled trees -/

/-- Compiling to bytecode gives a unit exactly when all names are known and all functions are there,
    and running the unit is evaluating the tree. -/
theorem Bytecode.compile_correct (s : Scope) (functions : FunctionTable)
    (notices : BytecodeUnit → List LogEntry) (e : Expr) :
    let compiler : Compiler Bytecode Handle BytecodeUnit :=
      ⟨Bytecode.target, .scope s, .balanced, notices⟩
    let result := (compiler.compile e).runOn (.fresh (.empty functions))
    ((∃ u, result.1 = .ok u) ↔
        (∀ x ∈ e.names, (s.constants.get? x).isSome) ∧
          ∀ call ∈ e.calls, s.functions.get? call.1 = some (call.2 : Int) ∧
            (functions.get? call.1).isSome) ∧
      ∀ u, result.1 = .ok u →
        (result.2.backend.state.program u).run = s.evaluate functions e := by
  intro compiler result
  obtain ⟨houtcome, hstate⟩ := Compiler.compile_runOn_idle (c := compiler) rfl e
    (.fresh (.empty functions)) rfl
  have hiff : (∃ u, result.1 = .ok u) ↔
      Resolves (.scope s) e ∧ ∀ call ∈ e.calls, (functions.get? call.1).isSome := by
    constructor
    · rintro ⟨u, hu⟩
      rw [show result.1 = _ from houtcome] at hu
      obtain ⟨_, b, hopening, htree⟩ := Step.runOn_bind_eq_ok (Prod.ext hu rfl)
      obtain ⟨v, b', htree, -⟩ := Step.runOn_bind_eq_ok htree
      cases hopening
      exact ⟨Bytecode.target.resolves_of_runOn htree, Bytecode.calls_of_runOn htree⟩
    · rintro ⟨hresolves, hcalls⟩
      rw [show result.1 = _ from houtcome, Bytecode.unit_runOn hresolves hcalls]
      exact ⟨_, rfl⟩
  refine ⟨?_, fun u hu => ?_⟩
  · rw [hiff, Resolver.resolves_scope_iff, and_assoc]
    refine and_congr_right fun _ => ?_
    constructor
    · exact fun h c hc => ⟨h.1 c hc, h.2 c hc⟩
    · exact fun h => ⟨fun c hc => (h c hc).1, fun c hc => (h c hc).2⟩
  · obtain ⟨hresolves, hcalls⟩ := hiff.1 ⟨u, hu⟩
    rw [show result.1 = _ from houtcome, Bytecode.unit_runOn hresolves hcalls] at hu
    cases hu
    rw [show result.2.backend.state = _ from hstate, Bytecode.unit_runOn hresolves hcalls]
    rw [Scope.evaluate_eq_tree]
    exact Bytecode.run_unitCode functions entryPoint (.scope s) e

/-- All four operators and a call: `(x + 2.0) * twice(x - 1.0) / -0.0` at three. -/
theorem Bytecode.compile_correct_operators :
    let s : Scope := ⟨[("x", 3.0)], [("twice", 1)]⟩
    let compiler : Compiler Bytecode Handle BytecodeUnit :=
      ⟨Bytecode.target, .scope s, .balanced, fun _ => []⟩
    let functions : FunctionTable := [Math.unary "twice" fun x => x + x]
    let e : Expr := .binary .divide
      (.binary .multiply (.binary .add (.name "x") (.number 2.0))
        (.call "twice" [.binary .subtract (.name "x") (.number 1.0)]))
      (.number (-0.0))
    let result := (compiler.compile e).runOn (.fresh (.empty functions))
    ∃ u, result.1 = .ok u ∧
      (result.2.backend.state.program u).run = .ok negativeInfinity := by
  intro s compiler functions e
  obtain ⟨hiff, hrun⟩ := Bytecode.compile_correct s functions (fun _ => []) e
  have hquotient : Math.quotient ((3.0 + 2.0) * ((3.0 - 1.0) + (3.0 - 1.0))) (-0.0)
      = negativeInfinity := by decide
  have hvalue : s.evaluate functions e = .ok negativeInfinity := by
    rw [Scope.evaluate_eq_tree]
    exact congrArg Except.ok hquotient
  -- only the value is computed here, not the run
  revert hiff hrun
  generalize (compiler.compile e).runOn (.fresh (.empty functions)) = result
  intro hiff hrun
  obtain ⟨u, hu⟩ := hiff.2 (by decide)
  exact ⟨u, hu, (hrun u hu).trans hvalue⟩

end ArithCompiler

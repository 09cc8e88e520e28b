import ArithCompiler.Proofs.Bytecode.Meaning
import ArithCompiler.Proofs.Engine.Runs
import ArithCompiler.Proofs.Math.Tables

set_option autoImplicit false

/-!
# What comes of a tree

On the bytecode engine a tree is refused at its first name or call that is not known, be it to the
resolver or to the backend. Otherwise calling its unit evaluates the tree. So nothing but this check
and the evaluation tells trees apart.
-/

namespace ArithCompiler

open Math (FunctionTable RunError)
open Resolver (Resolves)

namespace Bytecode

/-- Goes through a tree as compiling to bytecode does: a call that the resolver admits can still be
    of a function that is not there. -/
def checking (functions : FunctionTable) (r : Resolver) : Check :=
  { r.checking with
    call f args := do
      r.allow f args.length
      if (functions.get? f).isNone then .error (.backend (.noFunction f)) }

variable {functions : FunctionTable} {r : Resolver} {e : Expr}

theorem of_checking (h : (checking functions r).tree e = .ok ()) :
    Resolves r e ∧ ∀ c ∈ e.calls, (functions.get? c.1).isSome := by
  obtain ⟨hnames, hcalls⟩ := Check.of_tree_eq_ok h
  have hboth : ∀ c ∈ e.calls, r.allow c.1 c.2 = .ok () ∧ (functions.get? c.1).isSome := by
    intro c hc
    obtain ⟨-, us, hlength, hcall⟩ := hcalls c hc
    obtain ⟨_, hallow, hthere⟩ := Except.bind_eq_ok_iff.1 hcall
    rw [hlength] at hallow
    refine ⟨hallow, ?_⟩
    by_cases hnone : (functions.get? c.1).isNone
    · rw [if_pos hnone] at hthere
      cases hthere
    · rwa [Bool.not_eq_true, Option.isNone_eq_false_iff] at hnone
  exact ⟨⟨fun x hx => Resolver.constant?_isSome_of_check (hnames x hx), fun c hc => (hcalls c hc).1,
    fun c hc => (hboth c hc).1⟩, fun c hc => (hboth c hc).2⟩

theorem checking_foretells (functions : FunctionTable) (r : Resolver) :
    (checking functions r).Foretells (target.operations r) fun b => b.functions = functions where
  lenient := ⟨fun _ => rfl, fun _ => rfl⟩
  carries e b he hb := by
    obtain ⟨hresolves, hcalls⟩ := of_checking he
    rw [← hb] at hcalls
    exact ⟨_, _, tree_runOn hresolves hcalls, hb⟩
  name _ _ s hx _ := ⟨s, Target.name_refused hx s⟩
  enter := Target.enter_runOn target r
  call g us vs f b hcall hlength hb := by
    have hlift : (liftM (r.allow g vs.length) : Step Bytecode Unit).runOn b
        = (r.allow g us.length, b) := by
      rw [Step.runOn_lift, hlength]
    rcases Except.bind_eq_error_iff.1 hcall with hallow | ⟨_, hallow, hthere⟩
    · rw [hallow] at hlift
      exact ⟨b, Step.runOn_bind_error hlift⟩
    · rw [hallow] at hlift
      by_cases hnone : (functions.get? g).isNone
      · rw [if_pos hnone] at hthere
        cases hthere
        rw [← hb] at hnone
        refine ⟨b, (Step.runOn_bind_ok hlift).trans ?_⟩
        simp only [target, Step.runOn_bind, Step.runOn_get, if_pos hnone, Step.runOn_throw]
      · rw [if_neg hnone] at hthere
        cases hthere

/-- Over functions of the library the backend has nothing to refuse. -/
theorem checking_library {s : Scope} (hs : ∀ q ∈ s.functions, q ∈ Math.arities)
    (c : Math.Elementary) :
    checking (Math.routines c) (.scope s) = (Resolver.scope s).checking := by
  have hcall : ∀ f args, (checking (Math.routines c) (.scope s)).call f args
      = (Resolver.scope s).checking.call f args := by
    intro f args
    change ((s.admit? f args.length) >>= fun _ => _) = s.admit? f args.length
    cases hadmit : s.admit? f args.length with
    | error fault => rfl
    | ok =>
      have hmem := hs _ (Bindings.mem_of_get? (Scope.admit?_eq_ok_iff.1 hadmit))
      have hthere := Math.routines_isSome c _ hmem
      refine if_neg ?_
      rwa [Bool.not_eq_true, Option.isNone_eq_false_iff]
  rw [checking]
  congr 1
  funext f args
  exact hcall f args

end Bytecode

/-- The check comes first, and then there is only the code. -/
theorem Engine.bytecode_outcome (functions : FunctionTable) (r : Resolver) (e : Expr) :
    ((Engine.bytecode functions).compile r .balanced e).outcome
      = ((Bytecode.checking functions r).tree e).map fun _ =>
          let program : Program := ⟨entryPoint, Bytecode.unitCode r e, functions⟩
          .code program.listing program.run := by
  cases hcheck : (Bytecode.checking functions r).tree e with
  | error f =>
    have hunit : (((Engine.bytecode functions).target.unit r e).runOn
        (Engine.bytecode functions).initial).1 = .error f :=
      (Bytecode.checking_foretells functions r).unit_refused hcheck (s := .empty functions) rfl rfl
    rw [compile_outcome, hunit]
    rfl
  | ok =>
    obtain ⟨hresolves, hcalls⟩ := Bytecode.of_checking hcheck
    have hunit : ((Engine.bytecode functions).target.unit r e).runOn
        (Engine.bytecode functions).initial = _ :=
      Bytecode.unit_runOn hresolves (b := .empty functions) hcalls
    rw [compile_outcome, hunit]
    rfl

def Report.value? : Report → Option (Except RunError Float)
  | .events _ => none
  | .code _ value => some value

def Engine.result (g : Engine) (r : Resolver) (e : Expr) :
    Except Fault (Option (Except RunError Float)) :=
  (g.compile r .balanced e).outcome.map Report.value?

/-- Behind the check there is only the evaluation. -/
theorem Engine.bytecode_result (functions : FunctionTable) (r : Resolver) (e : Expr) :
    (Engine.bytecode functions).result r e = ((Bytecode.checking functions r).tree e).map
      fun _ => some ((evaluation r.value functions).tree e) := by
  rw [result, bytecode_outcome, ← Bytecode.run_unitCode functions entryPoint]
  cases (Bytecode.checking functions r).tree e <;> rfl

end ArithCompiler

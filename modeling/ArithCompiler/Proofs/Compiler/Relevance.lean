import ArithCompiler.Backend.Recording
import ArithCompiler.Compiler
import ArithCompiler.Proofs.Tree.Structure

set_option autoImplicit false

/-!
# The names that matter

A compilation looks up the constants of the names in a tree and the arities of the functions that are
called in it, and nothing else of a scope. Constants and functions are looked up apart, so a constant
may have the name of a function. Scopes that agree on what is looked up give the same code, which does
the same from every state, up to the unit or up to the same fault.
-/

namespace ArithCompiler

namespace Scope

structure AgreeOn (s s' : Scope) (e : Expr) : Prop where
  constants : ∀ x ∈ e.names, s.constants.get? x = s'.constants.get? x
  functions : ∀ c ∈ e.calls, s.functions.get? c.1 = s'.functions.get? c.1

theorem AgreeOn.subtree {s s' : Scope} {t e : Expr} (h : AgreeOn s s' e) (ht : Tree.Subtree t e) :
    AgreeOn s s' t :=
  ⟨fun x hx => h.constants x (Tree.mem_collect_subtree _ _ _ ht hx),
    fun c hc => h.functions c (Tree.mem_collect_subtree _ _ _ ht hc)⟩

theorem defineAll_agreeOn {definitions : List (String × Float)} {e : Expr}
    (h : ∀ d ∈ definitions, d.1 ∉ e.names) (s : Scope) : AgreeOn (s.defineAll definitions) s e := by
  refine ⟨fun x hx => ?_, fun _ _ => rfl⟩
  have hnone : Bindings.get? definitions.reverse x = none := by
    refine List.lookup_eq_none_iff.2 fun d hd => ?_
    have hne : d.1 ≠ x := fun heq => h d (List.mem_reverse.1 hd) (heq ▸ hx)
    exact bne_iff_ne.2 hne.symm
  rw [defineAll, Bindings.get?_setAll, hnone, Option.none_or]

end Scope

namespace Compiler

variable {σ ν υ : Type}

def inScope (c : Compiler σ ν υ) (s : Scope) : Compiler σ ν υ := { c with resolver := .scope s }

variable (c : Compiler σ ν υ) {s s' : Scope} {e : Expr}

theorem inScope_name {x : String} (h : s.constants.get? x = s'.constants.get? x) :
    (c.inScope s).name x = (c.inScope s').name x := by
  have hident : Resolver.ident (.scope s) c.target x = Resolver.ident (.scope s') c.target x := by
    simp only [Resolver.ident, h]
  simp only [name, inScope, reduceCtorEq, if_false, hident]
  rfl

theorem inScope_invocation {f : String} (h : s.functions.get? f = s'.functions.get? f)
    (count : Nat) : (c.inScope s).invocation f count = (c.inScope s').invocation f count := by
  have hcall : Resolver.call (.scope s) c.target f = Resolver.call (.scope s') c.target f := by
    funext args
    simp only [Resolver.call, Scope.admit?, h]
  simp only [invocation, inScope, hcall]

/-- The code for a tree asks the same of the backend in both scopes, in the same order. -/
theorem inScope_emit (h : s.AgreeOn s' e) : (c.inScope s).emit e = (c.inScope s').emit e := by
  induction e using Tree.exprInduction with
  | number v => rfl
  | name x => exact c.inScope_name (h.constants x (List.mem_singleton.2 rfl))
  | binary op l r ihl ihr =>
    rw [emit, emit, ihl (h.subtree (.left op (.refl l))), ihr (h.subtree (.right op (.refl r)))]
    rfl
  | call f args ih =>
    have hf : s.functions.get? f = s'.functions.get? f :=
      h.functions (f, args.length) ((Tree.mem_collect_call _ _ _).2 (.inr (List.mem_singleton.2 rfl)))
    have hargs : (c.inScope s).emitAll args = (c.inScope s').emitAll args := by
      have hall : ∀ a ∈ args, (c.inScope s).emit a = (c.inScope s').emit a := fun a ha =>
        ih a ha (h.subtree (.argument f ha (.refl a)))
      clear ih h hf
      induction args with
      | nil => rfl
      | cons a args iha =>
        rw [emitAll, emitAll, hall a List.mem_cons_self,
          iha fun b hb => hall b (List.mem_cons_of_mem _ hb)]
    rw [emit, emit, hargs, c.inScope_invocation hf]
    rfl

theorem inScope_compile (h : s.AgreeOn s' e) :
    (c.inScope s).compile e = (c.inScope s').compile e := by
  rw [compile, compile, c.inScope_emit h]
  rfl

theorem inScope_compilePhase (h : s.AgreeOn s' e) :
    (c.inScope s).compilePhase e = (c.inScope s').compilePhase e := by
  rw [compilePhase, compilePhase, c.inScope_compile h]

/-- In scopes that agree on the names and the functions of a tree its compilation is the same: the
    same unit or the same fault, the same requests to the backend until then, and the same left on
    the stack and in the log. So definitions of names that the tree does not use change nothing, in
    any number and order, and neither does a constant with the name of a function that is called.
    This holds for every target, also for one that writes down all it is asked for. -/
theorem compile_agreeOn (c : Compiler σ ν υ) (e : Expr) :
    (∀ s s' : Scope, s.AgreeOn s' e → ∀ w,
      ((c.inScope s).compile e).runOn w = ((c.inScope s').compile e).runOn w ∧
        ((c.inScope s).compilePhase e).runOn w = ((c.inScope s').compilePhase e).runOn w) ∧
    ∀ (s : Scope) (definitions : List (String × Float)), (∀ d ∈ definitions, d.1 ∉ e.names) → ∀ w,
      ((c.inScope (s.defineAll definitions)).compile e).runOn w
          = ((c.inScope s).compile e).runOn w ∧
        ((c.inScope (s.defineAll definitions)).compilePhase e).runOn w
          = ((c.inScope s).compilePhase e).runOn w := by
  have hsame : ∀ s s' : Scope, s.AgreeOn s' e → ∀ w,
      ((c.inScope s).compile e).runOn w = ((c.inScope s').compile e).runOn w ∧
        ((c.inScope s).compilePhase e).runOn w = ((c.inScope s').compilePhase e).runOn w :=
    fun s s' h w => ⟨congrArg (Step.runOn · w) (c.inScope_compile h),
      congrArg (Step.runOn · w) (c.inScope_compilePhase h)⟩
  exact ⟨hsame, fun s _ hunused => hsame _ _ (s.defineAll_agreeOn hunused)⟩

/-- A constant is defined under the name of the function that is called, and another one twice; the
    last name is bound in neither scope. -/
theorem compile_agreeOn_shadowed_sine :
    let e : Expr := .binary .add (.call "sin" [.name "pi"]) (.name "x")
    let s := Scope.math.defineAll [("sin", 2.0), ("e", 0.0), ("e", 1.0)]
    let c : Compiler Recording Handle (List Event) :=
      ⟨Recording.target, .missing, .balanced, fun _ => []⟩
    s.AgreeOn .math e ∧ ((c.inScope s).compile e).runOn (.fresh .empty)
      = ((c.inScope .math).compile e).runOn (.fresh .empty) := by
  intro e s c
  have h : s.AgreeOn .math e := Scope.defineAll_agreeOn (by decide) .math
  exact ⟨h, ((compile_agreeOn c e).1 s .math h _).1⟩

end Compiler

end ArithCompiler

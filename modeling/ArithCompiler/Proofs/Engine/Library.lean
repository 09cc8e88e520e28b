import ArithCompiler.Proofs.Bytecode.Outcome
import ArithCompiler.Proofs.Native.Code

set_option autoImplicit false

/-!
# Engines over the library

In a scope whose functions are all of the library both engines refuse what the resolver refuses, with
its fault, and nothing else.
-/

namespace ArithCompiler

open Math (Elementary)
open Resolver (Resolves)

/-- A scope knows no other reason to refuse a tree. -/
theorem Resolver.check_eq_error {s : Scope} {e : Expr} {f : Fault}
    (h : (Resolver.scope s).check e = .error f) :
    (∃ x, f = .unbound x) ∨ ∃ construct, f = .unsupported construct := by
  let P (f : Fault) : Prop := (∃ x, f = .unbound x) ∨ ∃ construct, f = .unsupported construct
  refine Check.of_tree_eq_error (P := P) (Resolver.checking_lenient _) ?_ ?_ ?_ h
  · intro x f hname
    change (if _ then _ else _) = _ at hname
    split at hname <;> cases hname
    exact .inl ⟨x, rfl⟩
  · intro g f henter
    cases henter
  · intro g us f hcall
    change s.admit? g us.length = .error f at hcall
    rw [Scope.admit?] at hcall
    split at hcall
    · cases hcall
      exact .inr ⟨_, rfl⟩
    · split at hcall <;> cases hcall
      exact .inr ⟨_, rfl⟩

variable (c : Elementary) (level : Int) {s : Scope} (hs : ∀ q ∈ s.functions, q ∈ Math.arities)
  {e : Expr}
include hs

/-- Native code does not fail when it is called. -/
theorem Engine.native_outcome (h : Resolves (.scope s) e) :
    ∃ text v, ((Engine.native c level).compile (.scope s) .balanced e).outcome
        = .ok (.code text (.ok v)) ∧
      (ieeeEvaluation (Resolver.scope s).value (Math.symbol c)).tree e = .ok v := by
  obtain ⟨u, v, hunit, hvalue, rfl⟩ := NativeModule.exists_unit c level hs h
  refine ⟨u.text, u.run c, ?_, hvalue⟩
  rw [compile_outcome]
  change ((NativeModule.target c level).unit (.scope s) e |>.runOn .empty).1.map _ = _
  rw [hunit]
  rfl

theorem EngineKind.compile_refused (kind : EngineKind) {f : Fault}
    (h : (Resolver.scope s).check e = .error f) :
    ((kind.engine c level).compile (.scope s) .balanced e).outcome = .error f := by
  cases kind with
  | native =>
    rw [engine, Engine.compile_outcome]
    change ((NativeModule.target c level).unit (.scope s) e |>.runOn .empty).1.map _ = _
    rw [NativeModule.unit_refused c level hs h]
    rfl
  | bytecode =>
    have hcheck : (Resolver.scope s).checking.tree e = .error f := h
    rw [engine, Engine.bytecode_outcome, Bytecode.checking_library hs, hcheck]
    rfl

end ArithCompiler

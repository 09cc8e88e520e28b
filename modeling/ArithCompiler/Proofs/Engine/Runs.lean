import ArithCompiler.Engine
import ArithCompiler.Proofs.Compiler.Phases

set_option autoImplicit false

/-!
# What a run shows

A compilation starts on a fresh backend, so a run shows what the target alone does. When the target
stops inside the body, the unit stays open.
-/

namespace ArithCompiler

namespace Backend

variable {σ ν υ : Type} (t : Target σ ν υ) (r : Resolver)

theorem unit_runOn_stopped {e : Expr} {f : Fault} {b : Backend σ} {s s' : σ}
    (hb : b.phase = .idle) (hopening : t.opening.runOn b.state = (.ok (), s))
    (htree : ((t.operations r).tree e).runOn s = (.error f, s')) :
    ((guarded t).unit r e).runOn b = (.error f, ⟨.body, entryPoint, s'⟩) := by
  obtain ⟨phase, name, hguarded, hbody⟩ := opening_runOn t hb
  rw [hopening] at hguarded hbody
  obtain ⟨rfl, rfl⟩ := hbody rfl
  have hlifted := tree_lifts t r e ⟨.body, entryPoint, s⟩ rfl
  rw [htree] at hlifted
  rw [Target.unit, Step.runOn_bind_ok hguarded, Step.runOn_bind_error hlifted]

end Backend

namespace Engine

variable (g : Engine) (r : Resolver) {e : Expr}

theorem compile_outcome (e : Expr) :
    (g.compile r .balanced e).outcome = ((g.target.unit r e).runOn g.initial).1.map
      (g.report ((g.target.unit r e).runOn g.initial).2) := by
  obtain ⟨houtcome, hstate⟩ := Compiler.compile_runOn_idle (c := g.compiler r .balanced) rfl e
    (.fresh g.initial) rfl
  rw [compile, runOf, houtcome, hstate]
  rfl

theorem compilePhase_outcome (e : Expr) :
    (g.compilePhase r e).outcome = (g.compile r .balanced e).outcome := by
  let c := g.compiler r .balanced
  let started : Work g.State g.Value :=
    ⟨.fresh g.initial, [], [.compiler .info "Starting the compilation phase"]⟩
  obtain ⟨houtcome, hstate⟩ := Compiler.compile_runOn_idle (c := c) rfl e started rfl
  have hstarted : (c.compilePhase e).runOn (.fresh g.initial) = (c.compile e >>= fun unit => do
      Compiler.announce "Finished the compilation phase"
      return unit).runOn started := rfl
  change _ = ((g.target.unit r e).runOn g.initial).1 at houtcome
  change _ = ((g.target.unit r e).runOn g.initial).2 at hstate
  rw [compile_outcome, ← houtcome, ← hstate, compilePhase, runOf, hstarted, Step.runOn_bind]
  cases (c.compile e).runOn started with
  | mk outcome w => cases outcome <;> rfl

theorem compile_stopped {f : Fault} {s s' : g.State}
    (hopening : g.target.opening.runOn g.initial = (.ok (), s))
    (htree : ((g.target.operations r).tree e).runOn s = (.error f, s')) :
    let run := g.compile r .balanced e
    run.outcome = .error f ∧ run.phase = .body ∧ run.recorded = g.recorded s' := by
  let c := g.compiler r .balanced
  have hunit : ((Backend.guarded c.target).unit c.resolver e).runOn (.fresh g.initial)
      = (.error f, ⟨.body, entryPoint, s'⟩) :=
    Backend.unit_runOn_stopped g.target r rfl hopening htree
  obtain ⟨stack, log, hcompile, -⟩ := Compiler.compile_runOn (c := c) rfl e (.fresh g.initial)
  rw [show (Work.fresh g.initial : Work g.State g.Value).backend = .fresh g.initial from rfl,
    hunit] at hcompile
  rw [compile, runOf, hcompile]
  exact ⟨rfl, rfl, rfl⟩

end Engine

end ArithCompiler

import ArithCompiler.Proofs.Compiler.Phases
import ArithCompiler.Session

set_option autoImplicit false

/-!
# A compiler that is used again

A failed compilation leaves operands on the stack of the compiler and a unit half made in its
backend. Neither reaches a later compilation: the first thing that one does is to drop the operands,
and the second is to ask for a new unit, which only an idle backend grants.
-/

namespace ArithCompiler

/-- A compiler with all that it keeps from one compilation to the next. Handles of values are of one
    type for all backends, since the operands of one are still there when the next takes its
    place. -/
structure Desk (ν υ : Type) where
  State : Type
  target : Target State ν υ
  notices : υ → List LogEntry
  resolver : Resolver
  backend : Backend State
  stack : List ν

inductive Deed (φ ν υ : Type) where
  | compile (t : Tree φ)
  | define (name : String) (value : Float)
  | replace {State : Type} (target : Target State ν υ) (notices : υ → List LogEntry)
      (initial : State)

variable {φ ν υ : Type} [Alien φ]

def Resolver.defined (r : Resolver) (name : String) (value : Float) : Resolver :=
  (r.define? name value).getD r

def Resolver.after (r : Resolver) : List (Deed φ ν υ) → Resolver
  | [] => r
  | .define name value :: rest => (r.defined name value).after rest
  | .compile _ :: rest | .replace _ _ _ :: rest => r.after rest

namespace Desk

def start {σ : Type} (target : Target σ ν υ) (notices : υ → List LogEntry) (resolver : Resolver)
    (backend : Backend σ) : Desk ν υ :=
  ⟨σ, target, notices, resolver, backend, []⟩

def compiler (d : Desk ν υ) : Compiler d.State ν υ := ⟨d.target, d.resolver, .balanced, d.notices⟩

def compile (d : Desk ν υ) (t : Tree φ) : Except Fault υ × Work d.State ν :=
  (d.compiler.compile t).runOn ⟨d.backend, d.stack, []⟩

def act (d : Desk ν υ) : Deed φ ν υ → Desk ν υ
  | .compile t => { d with backend := (d.compile t).2.backend, stack := (d.compile t).2.stack }
  | .define name value => { d with resolver := d.resolver.defined name value }
  | .replace target notices initial =>
    ⟨_, target, notices, d.resolver, .fresh initial, d.stack⟩

def after (d : Desk ν υ) (history : List (Deed φ ν υ)) : Desk ν υ := history.foldl act d

end Desk

/-! ## One compilation -/

namespace Compiler

variable {σ : Type} (c : Compiler σ ν υ)

/-- The operands that are there before do not matter. -/
theorem compile_runOn_stack (t : Tree φ) (b : Backend σ) (stack : List ν) (log : List LogEntry) :
    (c.compile t).runOn ⟨b, stack, log⟩ = (c.compile t).runOn ⟨b, [], log⟩ := rfl

theorem closing_stack {w w' : Work σ ν} {u : υ} (h : c.closing.runOn w = (.ok u, w')) :
    w'.stack = [] := by
  obtain ⟨b, stack, log⟩ := w
  match stack with
  | [v] =>
    obtain ⟨log', hclosing⟩ := c.closing_runOn v b log
    rw [hclosing] at h
    exact congrArg (·.2.stack) h.symm
  | [] | _ :: _ :: _ => cases h

theorem compile_stack {t : Tree φ} {w w' : Work σ ν} {u : υ}
    (h : (c.compile t).runOn w = (.ok u, w')) : w'.stack = [] := by
  obtain ⟨_, w₁, -, h⟩ := Step.runOn_bind_eq_ok h
  obtain ⟨_, w₂, -, h⟩ := Step.runOn_bind_eq_ok h
  exact c.closing_stack h

/-- A backend that is not idle refuses to begin a unit, and the compilation ends there. -/
theorem compile_refused (t : Tree φ) {w : Work σ ν} (h : w.backend.phase ≠ .idle) :
    ∃ log, (c.compile t).runOn w
      = (.error (.backend (.wrongPhase .create w.backend.phase .idle)), ⟨w.backend, [], log⟩) := by
  have hopening : (Backend.guarded c.target).opening.runOn w.backend
      = (.error (.backend (.wrongPhase .create w.backend.phase .idle)), w.backend) := by
    apply Step.runOn_bind_error
    apply Step.runOn_bind_error
    rw [Backend.require_runOn, if_neg h]
  obtain ⟨log, hrun⟩ := c.opening_runOn w
  rw [hopening] at hrun
  exact ⟨log, Step.runOn_bind_error hrun⟩

end Compiler

/-- A session, which keeps only the number of operands, loses nothing by that. -/
theorem Session.compile_of_stack (s : Session) (t : Tree φ) (stack : List s.engine.Value) :
    let result := ((s.engine.compiler s.resolver s.imbalance).compile t).runOn ⟨s.backend, stack, []⟩
    s.compile t = (result.1.map (s.engine.report result.2.backend.state),
      { s with backend := result.2.backend, residue := result.2.stack.length }) := by
  intro result
  rw [Session.compile, ← Compiler.compile_runOn_stack _ t s.backend stack []]

/-! ## Any history -/

namespace Desk

theorem act_resolver (d : Desk ν υ) (deed : Deed φ ν υ) :
    (d.act deed).resolver = d.resolver.after [deed] := by
  cases deed <;> rfl

/-- Only definitions change how names are resolved. -/
theorem after_resolver (d : Desk ν υ) (history : List (Deed φ ν υ)) :
    (d.after history).resolver = d.resolver.after history := by
  induction history generalizing d with
  | nil => rfl
  | cons deed history ih =>
    rw [after, List.foldl_cons, ← after, ih, act_resolver]
    cases deed <;> rfl

/-- After any history a compilation on an idle backend is that of a compiler which was never used,
    with the scope as it is now, and leaves no operands if it succeeds. On a backend that is not idle
    it is refused; the backend stays as it is and no operands are left. This holds for every target,
    also for one that writes down all it is asked for. -/
theorem compile_after (d₀ : Desk ν υ) (history : List (Deed φ ν υ)) (t : Tree φ) :
    let d := d₀.after history
    let result := d.compile t
    (d.backend.phase = .idle →
      result = (start d.target d.notices (d₀.resolver.after history) d.backend).compile t ∧
        ∀ u, result.1 = .ok u → result.2.stack = []) ∧
    (d.backend.phase ≠ .idle →
      (∃ error, result.1 = .error (.backend error)) ∧ result.2.backend = d.backend ∧
        result.2.stack = []) := by
  intro d result
  refine ⟨fun _ => ⟨?_, fun u hu => ?_⟩, fun hphase => ?_⟩
  · have hresolver : d.resolver = d₀.resolver.after history := after_resolver d₀ history
    rw [← hresolver]
    exact d.compiler.compile_runOn_stack t d.backend d.stack []
  · exact d.compiler.compile_stack (Prod.ext hu rfl)
  · obtain ⟨log, hrun⟩ := d.compiler.compile_refused t (w := ⟨d.backend, d.stack, []⟩) hphase
    have hresult : result = _ := hrun
    rw [hresult]
    exact ⟨⟨_, rfl⟩, rfl, rfl⟩

/-- A name that is not bound leaves an operand and half a unit. With a fresh backend and the name
    defined the next compilation is as good as the first, and one more is refused. -/
theorem compile_after_unbound :
    let compiler : Desk Handle BytecodeUnit :=
      start Bytecode.target (fun _ => []) (.scope .empty) (.fresh (.empty []))
    let sum : Expr := .binary .add (.number 1.0) (.name "x")
    let history : List (Deed Empty Handle BytecodeUnit) :=
      [.compile sum, .replace Bytecode.target (fun _ => []) (.empty []), .define "x" 2.0]
    (compiler.after [.compile sum]).stack = [.register 0] ∧
      (compiler.after history).compile sum
        = (start Bytecode.target (fun _ => []) (.scope ⟨[("x", 2.0)], []⟩)
            (.fresh (.empty []))).compile sum ∧
      ∃ error, ((compiler.after (history ++ [.compile sum])).compile sum).1
        = .error (.backend error) := by
  intro compiler sum history
  obtain ⟨hidle, -⟩ := compile_after compiler history sum
  obtain ⟨-, hbusy⟩ := compile_after compiler (history ++ [.compile sum]) sum
  exact ⟨rfl, (hidle rfl).1, (hbusy nofun).1⟩

end Desk

end ArithCompiler

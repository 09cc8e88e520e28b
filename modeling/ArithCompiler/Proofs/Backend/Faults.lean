import ArithCompiler.Backend.NativeModule
import ArithCompiler.Backend.Recording
import ArithCompiler.Proofs.Bytecode.Requests

set_option autoImplicit false

/-!
# Faults of a backend

A request fails with a fault of the contract or with one of the target. The targets for recordings,
for bytecode and for native code have faults of their own; that operands are left over is none of
them, since only the compiler counts operands.
-/

namespace ArithCompiler

variable {σ ν υ α β : Type}

namespace Step

def NoResidual (x : Step σ α) : Prop := ∀ s n, (x.runOn s).1 ≠ .error (.residual n)

namespace NoResidual

theorem pure (a : α) : (Pure.pure a : Step σ α).NoResidual :=
  fun _ _ h => by cases h

theorem get : (MonadState.get : Step σ σ).NoResidual :=
  fun _ _ h => by cases h

theorem set (s : σ) : (MonadStateOf.set s : Step σ PUnit).NoResidual :=
  fun _ _ h => by cases h

theorem throw {f : Fault} (hf : ∀ n, f ≠ .residual n) :
    (MonadExcept.throw f : Step σ α).NoResidual :=
  fun _ n h => hf n (Except.error.inj h)

theorem lift {x : Except Fault α} (hx : ∀ n, x ≠ .error (.residual n)) :
    (liftM x : Step σ α).NoResidual := by
  intro s n h
  rw [runOn_lift] at h
  exact hx n h

theorem bind {x : Step σ α} {next : α → Step σ β} (hx : x.NoResidual)
    (hnext : ∀ a, (next a).NoResidual) : (x >>= next).NoResidual := by
  intro s n h
  rcases runOn_bind_eq_error h with hfirst | ⟨a, s₁, -, hlater⟩
  · exact hx s n hfirst
  · exact hnext a s₁ n hlater

theorem guard {p : Prop} [Decidable p] {f : Fault} {x : Step σ α} (hf : ∀ n, f ≠ .residual n)
    (hx : x.NoResidual) :
    (if p then (MonadExcept.throw f : Step σ PUnit) >>= fun _ => x else x).NoResidual := by
  split
  · exact .bind (.throw hf) fun _ => hx
  · exact hx

end NoResidual

end Step

open Math (Elementary)

namespace Backend

variable {t : Target σ ν υ} {b : Backend σ} {f : Fault}

def Fails (t : Target σ ν υ) (f : Fault) : Prop :=
  ∃ b request, ((answer t request).runOn b).1 = .error f

theorem fails_of_error (request : Request ν) {x : Step (Backend σ) α} {reply : α → Reply ν υ}
    (hanswer : answer t request = x >>= fun a => pure (reply a))
    (h : (x.runOn b).1 = .error f) : Fails t f := by
  refine ⟨b, request, ?_⟩
  rw [hanswer, Step.runOn_bind_error (Prod.ext h rfl)]

theorem fails_of_opening (h : ((guarded t).opening.runOn b).1 = .error f) : Fails t f := by
  rcases Step.runOn_bind_eq_error h with hcreate | ⟨_, b', -, hposition⟩
  · exact fails_of_error (.create entryPoint .entry) rfl hcreate
  · exact fails_of_error .position rfl hposition

theorem fails_of_closing {v : ν} (h : (((guarded t).closing v).runOn b).1 = .error f) :
    Fails t f := by
  rcases Step.runOn_bind_eq_error h with hret | ⟨_, b', -, hfinalize⟩
  · exact fails_of_error (.ret v) rfl hret
  · exact fails_of_error .finalize rfl hfinalize

theorem not_fails_residual (ht : ∀ name request, (t.serve name request).NoResidual) (n : Nat) :
    ¬ Fails t (.residual n) := by
  rintro ⟨b, request, h⟩
  obtain ⟨-, -, ⟨⟨e, he⟩, -⟩ | hserve⟩ := answer_eq_error t (Prod.ext h rfl)
  · cases he
  · exact ht b.unitName request b.state n (congrArg Prod.fst hserve)

end Backend

theorem Recording.serve_noResidual (name : String) (request : Request Handle) :
    (target.serve name request).NoResidual := by
  intro s n h
  cases request <;> cases h

theorem Bytecode.serve_noResidual (name : String) (request : Request Handle) :
    (target.serve name request).NoResidual := by
  intro b n h
  by_cases hsuits : b.Suits request
  · obtain ⟨reply, s, hserve⟩ := serve_of_suits hsuits name
    rw [hserve] at h
    cases h
  · obtain ⟨e, hserve⟩ := serve_of_not_suits hsuits name
    rw [hserve] at h
    cases h

namespace NativeModule

theorem target?_noResidual (m : NativeModule) :
    (liftM m.target? : Step NativeModule NativeFunction).NoResidual := by
  refine .lift fun n h => ?_
  unfold target? at h
  split at h
  · split at h <;> cases h
  · cases h

theorem append_noResidual (i : NativeInstr) : (append i).NoResidual :=
  .bind .get fun m => .bind (target?_noResidual m) fun _ => .set _

theorem emit_noResidual (stem : Stem) (i : ResultName → NativeInstr) : (emit stem i).NoResidual :=
  .bind .get fun m => .bind (target?_noResidual m) fun _ =>
    .bind (append_noResidual _) fun _ => .pure _

theorem declare_noResidual (name : String) (count : Nat) : (declare name count).NoResidual := by
  simp only [declare]
  refine .bind .get fun m => ?_
  split
  · exact .guard (by simp) (.pure _)
  · exact .bind (.set _) fun _ => .pure _

theorem finish_ne_residual (c : Elementary) (level : Int) (name : String) (m : NativeModule)
    (n : Nat) : m.finish c level name ≠ .error (.residual n) := by
  intro h
  simp only [finish] at h
  split at h
  · cases h
  · split at h
    · cases h
    · split at h
      · cases h
      · split at h <;> cases h

theorem serve_noResidual (c : Elementary) (level : Int) (name : String)
    (request : Request Operand) : ((target c level).serve name request).NoResidual := by
  cases request with
  | create name signature =>
    simp only [Target.serve, target]
    exact .bind (.bind .get fun m => .guard (by simp) (.set _)) fun _ => .pure _
  | position =>
    simp only [Target.serve, target]
    exact .bind (.bind .get fun m => .guard (by simp) (.set _)) fun _ => .pure _
  | const value =>
    simp only [Target.serve, target]
    exact .bind (.pure _) fun _ => .pure _
  | binary op left right =>
    simp only [Target.serve, target]
    exact .bind (emit_noResidual _ _) fun _ => .pure _
  | call name args =>
    simp only [Target.serve, target]
    refine .bind (.bind (declare_noResidual name args.length) fun callee => ?_) fun _ => .pure _
    exact .bind .get fun m => .guard (by simp) (.guard (by simp) (emit_noResidual _ _))
  | ret value =>
    simp only [Target.serve, target]
    refine .bind (.bind .get fun m => .bind (target?_noResidual m) fun f => ?_) fun _ => .pure _
    exact .guard (by simp) (append_noResidual _)
  | finalize =>
    simp only [Target.serve, target]
    exact .bind (.bind .get fun m => .lift (finish_ne_residual c level name m)) fun _ => .pure _

end NativeModule

end ArithCompiler

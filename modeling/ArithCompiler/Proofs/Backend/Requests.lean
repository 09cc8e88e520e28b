import ArithCompiler.Proofs.Compiler.Phases

set_option autoImplicit false

/-!
# One request

A request is due in one phase. Then it is up to the target whether it is granted; otherwise the
contract refuses it before the target hears of it.
-/

namespace ArithCompiler

variable {σ ν υ : Type}

namespace Request

def IsOperation : Request ν → Prop
  | .const _ | .binary _ _ _ | .call _ _ => True
  | .create _ _ | .position | .ret _ | .finalize => False

def unitName (name : String) : Request ν → String
  | .create name' _ => name'
  | _ => name

end Request

def Target.serve (t : Target σ ν υ) (unitName : String) : Request ν → Step σ (Reply ν υ)
  | .create name signature => do
    t.create name signature
    return .done
  | .position => do
    t.position
    return .done
  | .const value => do return .value (← t.const value)
  | .binary op left right => do return .value (← t.binary op left right)
  | .call name args => do return .value (← t.call name args)
  | .ret value => do
    t.ret value
    return .done
  | .finalize => do return .unit (← t.finalize unitName)

namespace Backend

/-- The request is due in the first phase, and once it is granted the second one begins. -/
inductive Advances : Phase → Request ν → Phase → Prop
  | create (name : String) : Advances .idle (.create name .entry) .created
  | position : Advances .created .position .body
  | operation {r : Request ν} : r.IsOperation → Advances .body r .body
  | ret (v : ν) : Advances .body (.ret v) .returned
  | finalize : Advances .returned .finalize .finalized

def IsDue (b : Backend σ) (r : Request ν) : Prop := ∃ phase, Advances b.phase r phase

theorem Advances.isDue {b : Backend σ} {p phase : Phase} {r : Request ν} (h : Advances p r phase)
    (hb : b.phase = p) : b.IsDue r := by
  subst hb
  exact ⟨phase, h⟩

theorem isDue_of_operation {b : Backend σ} {r : Request ν} (hr : r.IsOperation)
    (hb : b.phase = .body) : b.IsDue r :=
  (Advances.operation hr).isDue hb

section Requests

variable (t : Target σ ν υ) {b : Backend σ} {r : Request ν}

/-- A request that is due is granted or refused by the target. -/
theorem answer_due {p phase : Phase} (hb : b.phase = p) (h : Advances p r phase) :
    (answer t r).runOn b = match (t.serve b.unitName r).runOn b.state with
      | (.ok reply, s) => (.ok reply, ⟨phase, r.unitName b.unitName, s⟩)
      | (.error f, s) => (.error f, { b with state := s }) := by
  cases h with
  | create name =>
    simp only [answer, Target.serve, Step.runOn_bind, create_runOn t name hb]
    cases (t.create name .entry).runOn b.state with
    | mk outcome s => cases outcome <;> rfl
  | position =>
    simp only [answer, Target.serve, Step.runOn_bind, position_runOn t hb]
    cases t.position.runOn b.state with
    | mk outcome s => cases outcome <;> rfl
  | operation hr =>
    cases r with
    | const value =>
      simp only [answer, Target.serve, Step.runOn_bind, const, require_runOn, if_pos hb, hook_runOn]
      cases (t.const value).runOn b.state with
      | mk outcome s => cases outcome <;> simp [Request.unitName, hb]
    | binary op left right =>
      simp only [answer, Target.serve, Step.runOn_bind, binary, require_runOn, if_pos hb,
        hook_runOn]
      cases (t.binary op left right).runOn b.state with
      | mk outcome s => cases outcome <;> simp [Request.unitName, hb]
    | call name args =>
      simp only [answer, Target.serve, Step.runOn_bind, call, require_runOn, if_pos hb, hook_runOn]
      cases (t.call name args).runOn b.state with
      | mk outcome s => cases outcome <;> simp [Request.unitName, hb]
    | create | position | ret | finalize => exact absurd hr (by simp [Request.IsOperation])
  | ret v =>
    simp only [answer, Target.serve, Step.runOn_bind, ret_runOn t v hb]
    cases (t.ret v).runOn b.state with
    | mk outcome s => cases outcome <;> rfl
  | finalize =>
    simp only [answer, Target.serve, Step.runOn_bind, finalize_runOn t hb]
    cases (t.finalize b.unitName).runOn b.state with
    | mk outcome s => cases outcome <;> rfl

theorem require_bind_runOn {α : Type} {action : Action} {expected : Phase}
    (h : b.phase ≠ expected) (x : Step (Backend σ) α) :
    (require action expected >>= fun _ => x).runOn b =
      (.error (.backend (.wrongPhase action b.phase expected)), b) := by
  rw [Step.runOn_bind, require_runOn, if_neg h]

/-- A request that is not due is refused by the contract, before the target hears of it. -/
theorem answer_not_due (h : ¬ b.IsDue r) : ∃ e, (answer t r).runOn b = (.error (.backend e), b) := by
  cases r with
  | create name signature =>
    by_cases hb : b.phase = .idle
    · have hsignature : signature ≠ .entry := by
        rintro rfl
        exact h ((Advances.create name).isDue hb)
      refine ⟨.wrongSignature name signature, ?_⟩
      simp only [answer, create, Step.runOn_bind, require_runOn, if_pos hb, if_pos hsignature,
        Step.runOn_throw]
    · exact ⟨_, Step.runOn_bind_error (require_bind_runOn hb _)⟩
  | position =>
    have hb : b.phase ≠ .created := fun hb => h (Advances.position.isDue hb)
    exact ⟨_, Step.runOn_bind_error (require_bind_runOn hb _)⟩
  | const value =>
    have hb : b.phase ≠ .body := fun hb => h (isDue_of_operation trivial hb)
    exact ⟨_, Step.runOn_bind_error (require_bind_runOn hb _)⟩
  | binary op left right =>
    have hb : b.phase ≠ .body := fun hb => h (isDue_of_operation trivial hb)
    exact ⟨_, Step.runOn_bind_error (require_bind_runOn hb _)⟩
  | call name args =>
    have hb : b.phase ≠ .body := fun hb => h (isDue_of_operation trivial hb)
    exact ⟨_, Step.runOn_bind_error (require_bind_runOn hb _)⟩
  | ret v =>
    have hb : b.phase ≠ .body := fun hb => h ((Advances.ret v).isDue hb)
    exact ⟨_, Step.runOn_bind_error (require_bind_runOn hb _)⟩
  | finalize =>
    have hb : b.phase ≠ .returned := fun hb => h (Advances.finalize.isDue hb)
    by_cases hbody : b.phase = .body
    · refine ⟨.noReturn b.unitName, ?_⟩
      simp only [answer, finalize, Step.runOn_bind, Step.runOn_get, if_pos hbody, Step.runOn_throw]
    · refine ⟨.wrongPhase .finalize b.phase .returned, ?_⟩
      simp only [answer, finalize, Step.runOn_bind, Step.runOn_get, if_neg hbody, require_runOn,
        if_neg hb]

/-- A request that fails leaves phase and name. Either it was not due, and nothing has changed, or
    the target could not serve it. -/
theorem answer_eq_error {f : Fault} {b' : Backend σ} (h : (answer t r).runOn b = (.error f, b')) :
    b'.phase = b.phase ∧ b'.unitName = b.unitName ∧
      ((∃ e, f = .backend e) ∧ b' = b ∨
        (t.serve b.unitName r).runOn b.state = (.error f, b'.state)) := by
  by_cases hdue : b.IsDue r
  · obtain ⟨phase, hphase⟩ := hdue
    rw [answer_due t rfl hphase] at h
    cases hserve : (t.serve b.unitName r).runOn b.state with
    | mk outcome s =>
      rw [hserve] at h
      cases outcome with
      | ok reply => cases h
      | error f' =>
        cases h
        exact ⟨rfl, rfl, .inr rfl⟩
  · obtain ⟨e, he⟩ := answer_not_due t hdue
    rw [he] at h
    cases h
    exact ⟨rfl, rfl, .inl ⟨⟨e, rfl⟩, rfl⟩⟩

theorem answer_eq_ok {reply : Reply ν υ} {b' : Backend σ}
    (h : (answer t r).runOn b = (.ok reply, b')) : Advances b.phase r b'.phase := by
  by_cases hdue : b.IsDue r
  · obtain ⟨phase, hphase⟩ := hdue
    rw [answer_due t rfl hphase] at h
    cases hserve : (t.serve b.unitName r).runOn b.state with
    | mk outcome s =>
      rw [hserve] at h
      cases outcome with
      | ok reply' =>
        cases h
        exact hphase
      | error f => cases h
  · obtain ⟨e, he⟩ := answer_not_due t hdue
    rw [he] at h
    cases h

theorem answer_unit {u : υ} {b' : Backend σ}
    (h : (answer t r).runOn b = (.ok (.unit u), b')) : r = .finalize := by
  cases r with
  | finalize => rfl
  | create | position | const | binary | call | ret =>
    obtain ⟨_, _, -, h⟩ := Step.runOn_bind_eq_ok h
    cases h

theorem answer_finalized (hb : b.phase = .finalized) (r : Request ν) :
    ∃ e, (answer t r).runOn b = (.error (.backend e), b) := by
  have hdue : ¬ b.IsDue r := by
    rintro ⟨phase, h⟩
    rw [hb] at h
    cases h
  exact answer_not_due t hdue

end Requests

end Backend

end ArithCompiler

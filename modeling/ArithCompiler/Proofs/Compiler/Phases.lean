import ArithCompiler.Proofs.Compiler.Operands

set_option autoImplicit false

/-!
# The contract does not get in the way

A compilation asks for its steps in the order of the phases. On an idle backend the contract admits
them all, and the outcome is that of the target alone.
-/

namespace ArithCompiler

variable {σ ν υ α β : Type}

namespace Backend

/-- In the body of a unit the step does what the other does to the state, and nothing else. -/
def Lifts (x : Step (Backend σ) α) (y : Step σ α) : Prop :=
  ∀ b, b.phase = .body → x.runOn b = ((y.runOn b.state).1, { b with state := (y.runOn b.state).2 })

namespace Lifts

theorem pure (a : α) : Lifts (Pure.pure a : Step (Backend σ) α) (Pure.pure a) :=
  fun _ _ => rfl

theorem lift (x : Except Fault α) : Lifts (liftM x : Step (Backend σ) α) (liftM x) := by
  intro b _
  rw [Step.runOn_lift, Step.runOn_lift]

theorem bind {x : Step (Backend σ) α} {y : Step σ α} {f : α → Step (Backend σ) β}
    {g : α → Step σ β} (h : Lifts x y) (hf : ∀ a, Lifts (f a) (g a)) :
    Lifts (x >>= f) (y >>= g) := by
  intro b hb
  rw [Step.runOn_bind, Step.runOn_bind, h b hb]
  cases y.runOn b.state with
  | mk outcome s =>
    cases outcome with
    | error e => rfl
    | ok a => exact hf a _ hb

theorem admitted (action : Action) (step : Step σ α) :
    Lifts (do require action .body; hook step) step := by
  intro b hb
  simp only [Step.runOn_bind, require_runOn, if_pos hb, hook_runOn]

end Lifts

variable (t : Target σ ν υ) (r : Resolver)

theorem operations_name_lifts (x : String) :
    Lifts (((guarded t).operations r).name x) ((t.operations r).name x) := by
  simp only [Target.operations]
  cases r.constant? x with
  | none => exact .lift (.error (.unbound x))
  | some v => exact .admitted _ _

theorem tree_lifts (e : Expr) :
    Lifts (((guarded t).operations r).tree e) ((t.operations r).tree e) := by
  induction e using Tree.exprInduction with
  | number v => exact .admitted _ _
  | name x => exact operations_name_lifts t r x
  | binary op l r' ihl ihr => exact ihl.bind fun a => ihr.bind fun b => .admitted _ _
  | call f args ih =>
    have hargs : Lifts (((guarded t).operations r).trees args) ((t.operations r).trees args) := by
      clear f
      induction args with
      | nil => exact .pure []
      | cons a args iha =>
        exact (ih a List.mem_cons_self).bind fun v =>
          (iha fun b hb => ih b (List.mem_cons_of_mem _ hb)).bind fun vs => .pure _
    exact (Lifts.lift _).bind fun _ => hargs.bind fun vs => (Lifts.lift _).bind fun _ =>
      .admitted _ _

theorem create_runOn (name : String) {b : Backend σ} (hb : b.phase = .idle) :
    (create t name .entry).runOn b = match (t.create name .entry).runOn b.state with
      | (.ok _, s) => (.ok (), ⟨.created, name, s⟩)
      | (.error f, s) => (.error f, { b with state := s }) := by
  simp only [create, Step.runOn_bind, require_runOn, if_pos hb, ne_eq, not_true_eq_false, if_false,
    hook_runOn, Step.runOn_modify]
  cases (t.create name .entry).runOn b.state with
  | mk outcome s => cases outcome <;> rfl

theorem position_runOn {b : Backend σ} (hb : b.phase = .created) :
    (position t).runOn b = match t.position.runOn b.state with
      | (.ok _, s) => (.ok (), ⟨.body, b.unitName, s⟩)
      | (.error f, s) => (.error f, { b with state := s }) := by
  simp only [position, Step.runOn_bind, require_runOn, if_pos hb, hook_runOn, enter_runOn]
  cases t.position.runOn b.state with
  | mk outcome s => cases outcome <;> rfl

theorem ret_runOn (v : ν) {b : Backend σ} (hb : b.phase = .body) :
    (ret t v).runOn b = match (t.ret v).runOn b.state with
      | (.ok _, s) => (.ok (), ⟨.returned, b.unitName, s⟩)
      | (.error f, s) => (.error f, { b with state := s }) := by
  simp only [ret, Step.runOn_bind, require_runOn, if_pos hb, hook_runOn, enter_runOn]
  cases (t.ret v).runOn b.state with
  | mk outcome s => cases outcome <;> rfl

theorem finalize_runOn {b : Backend σ} (hb : b.phase = .returned) :
    (finalize t).runOn b = match (t.finalize b.unitName).runOn b.state with
      | (.ok u, s) => (.ok u, ⟨.finalized, b.unitName, s⟩)
      | (.error f, s) => (.error f, { b with state := s }) := by
  have hbody : ¬ b.phase = .body := by
    rw [hb]
    decide
  simp only [finalize, Step.runOn_bind, Step.runOn_get, if_neg hbody, require_runOn, if_pos hb,
    hook_runOn, enter_runOn, Step.runOn_pure]
  cases (t.finalize b.unitName).runOn b.state with
  | mk outcome s => cases outcome <;> rfl

theorem opening_runOn {b : Backend σ} (hb : b.phase = .idle) :
    ∃ phase name, (guarded t).opening.runOn b
        = ((t.opening.runOn b.state).1, ⟨phase, name, (t.opening.runOn b.state).2⟩) ∧
      ((t.opening.runOn b.state).1 = .ok () → phase = .body ∧ name = entryPoint) := by
  simp only [Target.opening, guarded, Step.runOn_bind, create_runOn t entryPoint hb]
  cases (t.create entryPoint .entry).runOn b.state with
  | mk outcome s =>
    cases outcome with
    | error f => exact ⟨b.phase, b.unitName, rfl, fun h => by cases h⟩
    | ok =>
      simp only [position_runOn t (b := ⟨.created, entryPoint, s⟩) rfl]
      cases t.position.runOn s with
      | mk outcome s' =>
        cases outcome with
        | error f => exact ⟨.created, entryPoint, rfl, fun h => by cases h⟩
        | ok => exact ⟨.body, entryPoint, rfl, fun _ => ⟨rfl, rfl⟩⟩

theorem closing_runOn (v : ν) {b : Backend σ} (hb : b.phase = .body)
    (hname : b.unitName = entryPoint) :
    ∃ phase, ((guarded t).closing v).runOn b = (((t.closing v).runOn b.state).1,
        ⟨phase, entryPoint, ((t.closing v).runOn b.state).2⟩) ∧
      ∀ u, ((t.closing v).runOn b.state).1 = .ok u → phase = .finalized := by
  simp only [Target.closing, guarded, Step.runOn_bind, ret_runOn t v hb, hname]
  cases (t.ret v).runOn b.state with
  | mk outcome s =>
    cases outcome with
    | error f => exact ⟨b.phase, rfl, fun _ h => by cases h⟩
    | ok =>
      simp only [finalize_runOn t (b := ⟨.returned, entryPoint, s⟩) rfl]
      cases (t.finalize entryPoint).runOn s with
      | mk outcome s' =>
        cases outcome with
        | error f => exact ⟨.returned, rfl, fun _ h => by cases h⟩
        | ok u => exact ⟨.finalized, rfl, fun _ _ => rfl⟩

theorem unit_runOn (e : Expr) {b : Backend σ} (hb : b.phase = .idle) :
    ∃ phase name, ((guarded t).unit r e).runOn b
        = (((t.unit r e).runOn b.state).1, ⟨phase, name, ((t.unit r e).runOn b.state).2⟩) ∧
      ∀ u, ((t.unit r e).runOn b.state).1 = .ok u → phase = .finalized := by
  obtain ⟨phase, name, hopening, hbody⟩ := opening_runOn t hb
  simp only [Target.unit, Step.runOn_bind, hopening]
  cases hopened : t.opening.runOn b.state with
  | mk outcome s =>
    rw [hopened] at hbody
    cases outcome with
    | error f => exact ⟨phase, name, rfl, fun _ h => by cases h⟩
    | ok =>
      obtain ⟨rfl, rfl⟩ := hbody rfl
      have htree := tree_lifts t r e ⟨.body, entryPoint, s⟩ rfl
      simp only [htree]
      cases ((t.operations r).tree e).runOn s with
      | mk outcome s' =>
        cases outcome with
        | error f => exact ⟨.body, entryPoint, rfl, fun _ h => by cases h⟩
        | ok v =>
          obtain ⟨phase, hclosing, hphase⟩ := closing_runOn t v
            (b := ⟨.body, entryPoint, s'⟩) rfl rfl
          exact ⟨phase, entryPoint, hclosing, hphase⟩

/-! ## Units that came so far as to be finished -/

section Returned

variable {b b' : Backend σ}

theorem opening_fails (hb : b.phase = .idle) {f : Fault}
    (hrun : (guarded t).opening.runOn b = (.error f, b')) :
    b'.phase = .idle ∨ b'.phase = .created := by
  simp only [Target.opening, guarded, Step.runOn_bind, create_runOn t entryPoint hb] at hrun
  cases hcreate : (t.create entryPoint .entry).runOn b.state with
  | mk outcome s =>
    rw [hcreate] at hrun
    cases outcome with
    | error f' =>
      cases hrun
      exact .inl hb
    | ok =>
      simp only [position_runOn t (b := ⟨.created, entryPoint, s⟩) rfl] at hrun
      cases hposition : t.position.runOn s with
      | mk outcome s' =>
        rw [hposition] at hrun
        cases outcome with
        | error f' =>
          cases hrun
          exact .inr rfl
        | ok => cases hrun

/-- The body was closed, and the target has said how the unit is finished. -/
theorem closing_returned {v : ν} (hb : b.phase = .body) (hname : b.unitName = entryPoint)
    {outcome : Except Fault υ} (hrun : ((guarded t).closing v).runOn b = (outcome, b'))
    (hphase : b'.phase = .returned ∨ b'.phase = .finalized) :
    ∃ s, (t.ret v).runOn b.state = (.ok (), s) ∧
      (t.finalize entryPoint).runOn s = (outcome, b'.state) := by
  simp only [Target.closing, guarded, Step.runOn_bind, ret_runOn t v hb, hname] at hrun
  cases hret : (t.ret v).runOn b.state with
  | mk returned s =>
    rw [hret] at hrun
    cases returned with
    | error f =>
      cases hrun
      simp [hb] at hphase
    | ok =>
      simp only [finalize_runOn t (b := ⟨.returned, entryPoint, s⟩) rfl] at hrun
      refine ⟨s, rfl, ?_⟩
      cases hfinalize : (t.finalize entryPoint).runOn s with
      | mk finished s' =>
        rw [hfinalize] at hrun
        cases finished <;> cases hrun <;> rfl

/-- A unit that came so far as to be finished was opened, filled and returned from. -/
theorem unit_returned (e : Expr) (hb : b.phase = .idle) {outcome : Except Fault υ}
    (hrun : ((guarded t).unit r e).runOn b = (outcome, b'))
    (hphase : b'.phase = .returned ∨ b'.phase = .finalized) :
    ∃ s₁ s₂ s₃ v, t.opening.runOn b.state = (.ok (), s₁) ∧
      ((t.operations r).tree e).runOn s₁ = (.ok v, s₂) ∧ (t.ret v).runOn s₂ = (.ok (), s₃) ∧
      (t.finalize entryPoint).runOn s₃ = (outcome, b'.state) := by
  obtain ⟨phase, name, hopening, hbody⟩ := opening_runOn t hb
  cases hopened : t.opening.runOn b.state with
  | mk opened s₁ =>
    rw [hopened] at hopening hbody
    cases opened with
    | error f =>
      cases (Step.runOn_bind_error hopening).symm.trans hrun
      have hfailed : phase = .idle ∨ phase = .created := opening_fails t hb hopening
      rcases hfailed with rfl | rfl <;> simp at hphase
    | ok =>
      obtain ⟨rfl, rfl⟩ := hbody rfl
      rw [Target.unit, Step.runOn_bind_ok hopening] at hrun
      have htree := tree_lifts t r e ⟨.body, entryPoint, s₁⟩ rfl
      cases hvalue : ((t.operations r).tree e).runOn s₁ with
      | mk value s₂ =>
        rw [hvalue] at htree
        cases value with
        | error f =>
          cases (Step.runOn_bind_error htree).symm.trans hrun
          simp at hphase
        | ok v =>
          rw [Step.runOn_bind_ok htree] at hrun
          obtain ⟨s₃, hret, hfinalize⟩ := closing_returned t rfl rfl hrun hphase
          exact ⟨s₁, s₂, s₃, v, rfl, hvalue, hret, hfinalize⟩

end Returned

end Backend

/-- A compilation on an idle backend has the outcome that the target alone gives, and leaves the
    target's state as that does. -/
theorem Compiler.compile_runOn_idle {c : Compiler σ ν υ} (hc : c.imbalance = .balanced) (e : Expr)
    (w : Work σ ν) (hw : w.backend.phase = .idle) :
    ((c.compile e).runOn w).1 = ((c.target.unit c.resolver e).runOn w.backend.state).1 ∧
      ((c.compile e).runOn w).2.backend.state
        = ((c.target.unit c.resolver e).runOn w.backend.state).2 := by
  obtain ⟨stack, log, hcompile, -⟩ := Compiler.compile_runOn hc e w
  obtain ⟨phase, name, hunit, -⟩ := Backend.unit_runOn c.target c.resolver e hw
  rw [hcompile, hunit]
  exact ⟨rfl, rfl⟩

/-- A compilation whose unit was returned from has gone through all steps of the target. -/
theorem Compiler.compile_returned {c : Compiler σ ν υ} (hc : c.imbalance = .balanced) (e : Expr)
    {w w' : Work σ ν} (hw : w.backend.phase = .idle) {outcome : Except Fault υ}
    (hrun : (c.compile e).runOn w = (outcome, w'))
    (hphase : w'.backend.phase = .returned ∨ w'.backend.phase = .finalized) :
    ∃ s₁ s₂ s₃ v, c.target.opening.runOn w.backend.state = (.ok (), s₁) ∧
      ((c.target.operations c.resolver).tree e).runOn s₁ = (.ok v, s₂) ∧
      (c.target.ret v).runOn s₂ = (.ok (), s₃) ∧
      (c.target.finalize entryPoint).runOn s₃ = (outcome, w'.backend.state) := by
  obtain ⟨stack, log, hcompile, -⟩ := compile_runOn hc e w
  obtain ⟨rfl, rfl⟩ := Prod.mk.inj (hcompile.symm.trans hrun)
  exact Backend.unit_returned c.target c.resolver e hw rfl hphase

end ArithCompiler

import ArithCompiler.Proofs.Compiler.Operands

set_option autoImplicit false

/-!
# Checks

A check goes through a tree as a computation does and looks only at what is refused. When the
computation comes through every tree that passes the check, it stops in every other tree at the
first refusal, with the fault of that.
-/

namespace ArithCompiler

theorem Except.bind_eq_ok_iff {ε α β : Type} {x : Except ε α} {f : α → Except ε β} {b : β} :
    x >>= f = .ok b ↔ ∃ a, x = .ok a ∧ f a = .ok b := by
  cases x with
  | error e => exact ⟨nofun, nofun⟩
  | ok a => exact ⟨fun h => ⟨a, rfl, h⟩, fun ⟨_, rfl, h⟩ => h⟩

theorem Except.bind_eq_error_iff {ε α β : Type} {x : Except ε α} {f : α → Except ε β} {e : ε} :
    x >>= f = .error e ↔ x = .error e ∨ ∃ a, x = .ok a ∧ f a = .error e := by
  cases x with
  | error e' =>
    constructor
    · intro h
      cases h
      exact .inl rfl
    · intro h
      rcases h with h | ⟨_, h, -⟩ <;> cases h
      rfl
  | ok a => exact ⟨fun h => .inr ⟨a, rfl, h⟩, fun h => h.elim nofun fun ⟨_, rfl, h⟩ => h⟩

abbrev Check := Operations (Except Fault) Unit

namespace Check

structure Lenient (k : Check) : Prop where
  number : ∀ v, k.number v = .ok ()
  binary : ∀ op, k.binary op () () = .ok ()

variable {k : Check}

theorem trees_eq_ok {es : List Expr} {us : List Unit} (h : k.trees es = .ok us) :
    us.length = es.length ∧ ∀ e ∈ es, k.tree e = .ok () := by
  induction es generalizing us with
  | nil =>
    cases h
    exact ⟨rfl, nofun⟩
  | cons e es ih =>
    obtain ⟨_, he, h⟩ := Except.bind_eq_ok_iff.1 h
    obtain ⟨vs, hes, h⟩ := Except.bind_eq_ok_iff.1 h
    cases h
    obtain ⟨hlength, hall⟩ := ih hes
    refine ⟨congrArg (· + 1) hlength, fun a ha => ?_⟩
    rcases List.mem_cons.1 ha with rfl | ha
    · exact he
    · exact hall a ha

theorem of_tree_eq_ok {e : Expr} (h : k.tree e = .ok ()) :
    (∀ x ∈ e.names, k.name x = .ok ()) ∧
      ∀ c ∈ e.calls, k.enter c.1 = .ok () ∧ ∃ us, us.length = c.2 ∧ k.call c.1 us = .ok () := by
  induction e using Tree.exprInduction with
  | number v => exact ⟨nofun, nofun⟩
  | name x =>
    refine ⟨fun y hy => ?_, nofun⟩
    rw [List.mem_singleton.1 hy]
    exact h
  | binary op left right ihl ihr =>
    obtain ⟨_, hl, h⟩ := Except.bind_eq_ok_iff.1 h
    obtain ⟨_, hr, -⟩ := Except.bind_eq_ok_iff.1 h
    obtain ⟨hlnames, hlcalls⟩ := ihl hl
    obtain ⟨hrnames, hrcalls⟩ := ihr hr
    exact ⟨fun x hx => (List.mem_append.1 hx).elim (hlnames x) (hrnames x),
      fun c hc => (List.mem_append.1 hc).elim (hlcalls c) (hrcalls c)⟩
  | call f args ih =>
    obtain ⟨_, henter, h⟩ := Except.bind_eq_ok_iff.1 h
    obtain ⟨us, hargs, h⟩ := Except.bind_eq_ok_iff.1 h
    obtain ⟨hlength, hall⟩ := trees_eq_ok hargs
    refine ⟨fun x hx => ?_, fun c hc => ?_⟩
    · rcases (Tree.mem_collect_call _ _ _).1 hx with ⟨a, ha, hx⟩ | hx
      · exact (ih a ha (hall a ha)).1 x hx
      · cases hx
    · rcases (Tree.mem_collect_call _ _ _).1 hc with ⟨a, ha, hc⟩ | hc
      · exact (ih a ha (hall a ha)).2 c hc
      · obtain rfl := List.mem_singleton.1 hc
        exact ⟨henter, us, hlength, h⟩

theorem trees_eq_error {es : List Expr} {f : Fault} (h : k.trees es = .error f) :
    ∃ e ∈ es, k.tree e = .error f := by
  induction es with
  | nil => cases h
  | cons e es ih =>
    rcases Except.bind_eq_error_iff.1 h with he | ⟨_, -, h⟩
    · exact ⟨e, List.mem_cons_self, he⟩
    · rcases Except.bind_eq_error_iff.1 h with hes | ⟨_, -, h⟩
      · obtain ⟨a, ha, hfault⟩ := ih hes
        exact ⟨a, List.mem_cons_of_mem _ ha, hfault⟩
      · cases h

theorem of_tree_eq_error {P : Fault → Prop} (hk : k.Lenient)
    (hname : ∀ x f, k.name x = .error f → P f) (henter : ∀ g f, k.enter g = .error f → P f)
    (hcall : ∀ g us f, k.call g us = .error f → P f) {e : Expr} {f : Fault}
    (h : k.tree e = .error f) : P f := by
  induction e using Tree.exprInduction with
  | number v => cases h.symm.trans (hk.number v)
  | name x => exact hname x f h
  | binary op left right ihl ihr =>
    rcases Except.bind_eq_error_iff.1 h with hl | ⟨_, -, h⟩
    · exact ihl hl
    · rcases Except.bind_eq_error_iff.1 h with hr | ⟨_, -, h⟩
      · exact ihr hr
      · cases h.symm.trans (hk.binary op)
  | call g args ih =>
    rcases Except.bind_eq_error_iff.1 h with h | ⟨_, -, h⟩
    · exact henter g f h
    · rcases Except.bind_eq_error_iff.1 h with hargs | ⟨us, -, h⟩
      · obtain ⟨a, ha, hfault⟩ := trees_eq_error hargs
        exact ih a ha hfault
      · exact hcall g us f h

/-! ## The fault of a check is that of the computation -/

variable {σ ν υ : Type}

/-- In states with the property the computation comes through the trees that pass the check, and
    stops at a name or a call that does not. -/
structure Foretells (k : Check) (o : Operations (Step σ) ν) (I : σ → Prop) : Prop where
  lenient : k.Lenient
  carries : ∀ e s, k.tree e = .ok () → I s → ∃ v s', (o.tree e).runOn s = (.ok v, s') ∧ I s'
  name : ∀ x f s, k.name x = .error f → I s → ∃ s', (o.name x).runOn s = (.error f, s')
  enter : ∀ g s, (o.enter g).runOn s = (k.enter g, s)
  call : ∀ g us vs f s, k.call g us = .error f → us.length = vs.length → I s →
    ∃ s', (o.call g vs).runOn s = (.error f, s')

namespace Foretells

variable {o : Operations (Step σ) ν} {I : σ → Prop}

theorem trees (h : k.Foretells o I) {es : List Expr} (hes : ∀ e ∈ es, k.tree e = .ok ()) {s : σ}
    (hs : I s) : ∃ vs s', (o.trees es).runOn s = (.ok vs, s') ∧ I s' := by
  induction es generalizing s with
  | nil => exact ⟨[], s, rfl, hs⟩
  | cons e es ih =>
    obtain ⟨v, s₁, hv, hs₁⟩ := h.carries e s (hes e List.mem_cons_self) hs
    obtain ⟨vs, s₂, hvs, hs₂⟩ := ih (fun a ha => hes a (List.mem_cons_of_mem _ ha)) hs₁
    refine ⟨v :: vs, s₂, ?_, hs₂⟩
    rw [Operations.trees, Step.runOn_bind_ok hv, Step.runOn_bind_ok hvs, Step.runOn_pure]

theorem trees_refused (h : k.Foretells o I) {es : List Expr} {f : Fault}
    (hes : ∀ e ∈ es, ∀ s, k.tree e = .error f → I s →
      ∃ s', (o.tree e).runOn s = (.error f, s'))
    (hcheck : k.trees es = .error f) {s : σ} (hs : I s) :
    ∃ s', (o.trees es).runOn s = (.error f, s') := by
  induction es generalizing s with
  | nil => cases hcheck
  | cons e es ih =>
    rcases Except.bind_eq_error_iff.1 hcheck with he | ⟨_, he, hrest⟩
    · obtain ⟨s', hrun⟩ := hes e List.mem_cons_self s he hs
      exact ⟨s', Step.runOn_bind_error hrun⟩
    · obtain ⟨v, s₁, hv, hs₁⟩ := h.carries e s he hs
      have hrest : k.trees es = .error f := by
        rcases Except.bind_eq_error_iff.1 hrest with hrest | ⟨us, -, hrest⟩
        · exact hrest
        · cases hrest
      obtain ⟨s', hrun⟩ := ih (fun a ha => hes a (List.mem_cons_of_mem _ ha)) hrest hs₁
      exact ⟨s', (Step.runOn_bind_ok hv).trans (Step.runOn_bind_error hrun)⟩

theorem tree_refused (h : k.Foretells o I) {e : Expr} {f : Fault} (he : k.tree e = .error f) {s : σ}
    (hs : I s) : ∃ s', (o.tree e).runOn s = (.error f, s') := by
  induction e using Tree.exprInduction generalizing s with
  | number w => cases he.symm.trans (h.lenient.number w)
  | name x => exact h.name x f s he hs
  | binary op left right ihl ihr =>
    rcases Except.bind_eq_error_iff.1 he with hl | ⟨_, hl, hr⟩
    · obtain ⟨s', hrun⟩ := ihl hl hs
      exact ⟨s', Step.runOn_bind_error hrun⟩
    · obtain ⟨a, s₁, ha, hs₁⟩ := h.carries left s hl hs
      rcases Except.bind_eq_error_iff.1 hr with hr | ⟨_, -, hr⟩
      · obtain ⟨s', hrun⟩ := ihr hr hs₁
        exact ⟨s', (Step.runOn_bind_ok ha).trans (Step.runOn_bind_error hrun)⟩
      · cases hr.symm.trans (h.lenient.binary op)
  | call g args ih =>
    have hstart := h.enter g s
    rcases Except.bind_eq_error_iff.1 he with henter | ⟨_, henter, he⟩
    · rw [henter] at hstart
      exact ⟨s, Step.runOn_bind_error hstart⟩
    · rw [henter] at hstart
      rcases Except.bind_eq_error_iff.1 he with hargs | ⟨us, hargs, hcall⟩
      · obtain ⟨s', hrun⟩ := h.trees_refused (fun a ha s hc hs => ih a ha hc hs) hargs hs
        exact ⟨s', (Step.runOn_bind_ok hstart).trans (Step.runOn_bind_error hrun)⟩
      · obtain ⟨hlength, hall⟩ := trees_eq_ok hargs
        obtain ⟨vs, s₁, hvs, hs₁⟩ := h.trees hall hs
        have hvslength := (o.trees_length args).of_runOn hvs
        obtain ⟨s', hrun⟩ := h.call g us vs f s₁ hcall (hlength.trans hvslength.symm) hs₁
        exact ⟨s', ((Step.runOn_bind_ok hstart).trans (Step.runOn_bind_ok hvs)).trans hrun⟩

theorem unit_refused {t : Target σ ν υ} {r : Resolver} (h : k.Foretells (t.operations r) I)
    {e : Expr} {f : Fault} (he : k.tree e = .error f) {s s₁ : σ}
    (hopening : t.opening.runOn s = (.ok (), s₁)) (hs₁ : I s₁) :
    ((t.unit r e).runOn s).1 = .error f := by
  obtain ⟨s', htree⟩ := h.tree_refused he hs₁
  rw [Target.unit, Step.runOn_bind_ok hopening, Step.runOn_bind_error htree]

end Foretells

end Check

end ArithCompiler

import ArithCompiler.Backend.Fault

set_option autoImplicit false

/-!
# Steps on a state

A step reads and changes a state and gives a value or a fault. A fault does not undo what was
changed before it.
-/

namespace ArithCompiler

abbrev Step (σ α : Type) := ExceptT Fault (StateM σ) α

namespace Step

variable {σ τ α : Type}

def runOn (step : Step σ α) (s : σ) : Except Fault α × σ := StateT.run (ExceptT.run step) s

/-- The step on a part of a state; the rest stays as it is. -/
def within (part : τ → σ) (replace : σ → τ → τ) (step : Step σ α) : Step τ α :=
  ExceptT.mk fun t =>
    let (outcome, s) := step.runOn (part t)
    (outcome, replace s t)

section Runs

variable {β : Type}

@[simp]
theorem runOn_pure (a : α) (s : σ) : (pure a : Step σ α).runOn s = (.ok a, s) := rfl

@[simp]
theorem runOn_throw (f : Fault) (s : σ) : (throw f : Step σ α).runOn s = (.error f, s) := rfl

theorem runOn_bind (x : Step σ α) (f : α → Step σ β) (s : σ) :
    (x >>= f).runOn s = match x.runOn s with
      | (.ok a, s') => (f a).runOn s'
      | (.error e, s') => (.error e, s') := by
  unfold runOn
  simp only [ExceptT.run_bind, StateT.run_bind]
  cases h : (ExceptT.run x).run s with
  | mk o s' => cases o <;> rfl

theorem runOn_bind_ok {x : Step σ α} {f : α → Step σ β} {s s' : σ} {a : α}
    (h : x.runOn s = (.ok a, s')) : (x >>= f).runOn s = (f a).runOn s' := by
  rw [runOn_bind, h]

theorem runOn_bind_error {x : Step σ α} {f : α → Step σ β} {s s' : σ} {e : Fault}
    (h : x.runOn s = (.error e, s')) : (x >>= f).runOn s = (.error e, s') := by
  rw [runOn_bind, h]

theorem runOn_bind_eq_ok {x : Step σ α} {f : α → Step σ β} {s s' : σ} {b : β}
    (h : (x >>= f).runOn s = (.ok b, s')) :
    ∃ a s₁, x.runOn s = (.ok a, s₁) ∧ (f a).runOn s₁ = (.ok b, s') := by
  rw [runOn_bind] at h
  cases hx : x.runOn s with
  | mk outcome s₁ =>
    rw [hx] at h
    cases outcome with
    | error e => cases h
    | ok a => exact ⟨a, s₁, rfl, h⟩

theorem runOn_bind_eq_ok_iff {x : Step σ α} {f : α → Step σ β} {s s' : σ} {b : β} :
    (x >>= f).runOn s = (.ok b, s') ↔
      ∃ a s₁, x.runOn s = (.ok a, s₁) ∧ (f a).runOn s₁ = (.ok b, s') :=
  ⟨runOn_bind_eq_ok, fun ⟨_, _, hx, hf⟩ => (runOn_bind_ok hx).trans hf⟩

theorem runOn_bind_eq_error {x : Step σ α} {f : α → Step σ β} {s : σ} {e : Fault}
    (h : ((x >>= f).runOn s).1 = .error e) :
    (x.runOn s).1 = .error e ∨ ∃ a s₁, x.runOn s = (.ok a, s₁) ∧ ((f a).runOn s₁).1 = .error e := by
  rw [runOn_bind] at h
  cases hx : x.runOn s with
  | mk outcome s₁ =>
    rw [hx] at h
    cases outcome with
    | error e' =>
      cases h
      exact .inl rfl
    | ok a => exact .inr ⟨a, s₁, rfl, h⟩

theorem runOn_map (f : α → β) (x : Step σ α) (s : σ) :
    (f <$> x).runOn s = ((x.runOn s).1.map f, (x.runOn s).2) := by
  rw [← bind_pure_comp, runOn_bind]
  cases h : x.runOn s with
  | mk o s' => cases o <;> rfl

theorem runOn_map_eq_ok_iff {x : Step σ α} {f : α → β} {s s' : σ} {b : β} :
    (f <$> x).runOn s = (.ok b, s') ↔ ∃ a, x.runOn s = (.ok a, s') ∧ f a = b := by
  rw [← bind_pure_comp, runOn_bind_eq_ok_iff]
  constructor
  · rintro ⟨a, s₁, hx, hf⟩
    cases hf
    exact ⟨a, hx, rfl⟩
  · rintro ⟨a, hx, rfl⟩
    exact ⟨a, s', hx, rfl⟩

theorem runOn_bind_pure_eq_ok_iff {x : Step σ α} {f : α → β} (hf : ∀ a a', f a = f a' → a = a')
    {s s' : σ} {a : α} :
    (x >>= fun a => pure (f a)).runOn s = (.ok (f a), s') ↔ x.runOn s = (.ok a, s') := by
  rw [bind_pure_comp, runOn_map_eq_ok_iff]
  constructor
  · rintro ⟨a', hx, heq⟩
    rw [← hf a' a heq]
    exact hx
  · exact fun hx => ⟨a, hx, rfl⟩

@[simp]
theorem runOn_get (s : σ) : (get : Step σ σ).runOn s = (.ok s, s) := rfl

@[simp]
theorem runOn_set (s s' : σ) : (set s' : Step σ PUnit).runOn s = (.ok ⟨⟩, s') := rfl

@[simp]
theorem runOn_modify (f : σ → σ) (s : σ) :
    (modify f : Step σ PUnit).runOn s = (.ok ⟨⟩, f s) := rfl

@[simp]
theorem runOn_lift (x : Except Fault α) (s : σ) : (liftM x : Step σ α).runOn s = (x, s) := by
  cases x <;> rfl

@[simp]
theorem runOn_within (part : τ → σ) (replace : σ → τ → τ) (x : Step σ α) (t : τ) :
    (x.within part replace).runOn t
      = ((x.runOn (part t)).1, replace (x.runOn (part t)).2 t) := rfl

theorem ext {x y : Step σ α} (h : ∀ s, x.runOn s = y.runOn s) : x = y := funext h

end Runs

end Step

end ArithCompiler

import ArithCompiler.Proofs.Backend.Requests
import ArithCompiler.Proofs.Bytecode.Code

set_option autoImplicit false

/-!
# Requests for bytecode

The target for bytecode grants every request whose registers and functions there are. It checks them
before it writes anything, so a refusal leaves code and registers as they were.
-/

namespace ArithCompiler

namespace Bytecode

variable {b : Bytecode}

def InUse (b : Bytecode) (h : Handle) : Prop := ∃ i : Nat, i < b.used ∧ h = .register i

def Suits (b : Bytecode) : Request Handle → Prop
  | .create _ _ | .position | .const _ | .finalize => True
  | .binary _ left right => b.InUse left ∧ b.InUse right
  | .call name args => (b.functions.get? name).isSome ∧ ∀ h ∈ args, b.InUse h
  | .ret value => b.InUse value

theorem register_of_inUse {h : Handle} (hb : b.InUse h) : ∃ r, b.register h = .ok r := by
  obtain ⟨i, hi, rfl⟩ := hb
  exact ⟨i, register_handle hi⟩

theorem register_of_not_inUse {h : Handle} (hb : ¬ b.InUse h) :
    b.register h = .error (.backend (.foreignHandle h)) := by
  cases h with
  | register r =>
    rw [register, if_neg]
    rintro ⟨hpos, hlt⟩
    exact hb ⟨r.toNat, by omega, by rw [Int.toNat_of_nonneg hpos]⟩
  | text | nothing => rfl

theorem mapM_register_of_inUse {hs : List Handle} (hb : ∀ h ∈ hs, b.InUse h) :
    ∃ rs, hs.mapM b.register = .ok rs := by
  induction hs with
  | nil => exact ⟨[], rfl⟩
  | cons h hs ih =>
    obtain ⟨r, hr⟩ := register_of_inUse (hb h List.mem_cons_self)
    obtain ⟨rs, hrs⟩ := ih fun h' hh' => hb h' (List.mem_cons_of_mem h hh')
    exact ⟨r :: rs, by rw [List.mapM_cons, hr, hrs]; rfl⟩

theorem mapM_register_of_not_inUse {hs : List Handle} (hb : ¬ ∀ h ∈ hs, b.InUse h) :
    ∃ e, hs.mapM b.register = .error (.backend e) := by
  induction hs with
  | nil => exact absurd (by simp) hb
  | cons h hs ih =>
    rw [List.mapM_cons]
    by_cases hh : b.InUse h
    · obtain ⟨r, hr⟩ := register_of_inUse hh
      obtain ⟨e, he⟩ := ih fun hall => hb fun h' hh' => by
        rcases List.mem_cons.1 hh' with rfl | hh'
        · exact hh
        · exact hall h' hh'
      exact ⟨e, by rw [hr, he]; rfl⟩
    · exact ⟨_, by rw [register_of_not_inUse hh]; rfl⟩

theorem serve_of_suits {r : Request Handle} (h : b.Suits r) (name : String) :
    ∃ reply s, (target.serve name r).runOn b = (.ok reply, s) := by
  cases r with
  | create | position | const | finalize => exact ⟨_, _, rfl⟩
  | binary op left right =>
    obtain ⟨l, hl⟩ := register_of_inUse h.1
    obtain ⟨r, hr⟩ := register_of_inUse h.2
    refine ⟨.value (.register b.used),
      { b with code := b.code ++ [.binary op b.used l r], used := b.used + 1 }, ?_⟩
    simp only [Target.serve, target, Step.runOn_bind, Step.runOn_get, Step.runOn_lift, hl, hr]
    rfl
  | call f args =>
    have hf : ¬ (b.functions.get? f).isNone := by
      rw [Bool.not_eq_true, Option.isNone_eq_false_iff]
      exact h.1
    obtain ⟨rs, hrs⟩ := mapM_register_of_inUse h.2
    refine ⟨.value (.register b.used),
      { b with code := b.code ++ [.call b.used f rs], used := b.used + 1 }, ?_⟩
    simp only [Target.serve, target, Step.runOn_bind, Step.runOn_get, if_neg hf, Step.runOn_lift,
      hrs]
    rfl
  | ret v =>
    obtain ⟨r, hr⟩ := register_of_inUse h
    refine ⟨.done, { b with code := b.code ++ [.ret r] }, ?_⟩
    simp only [Target.serve, target, Step.runOn_bind, Step.runOn_get, Step.runOn_lift, hr]
    rfl

theorem serve_of_not_suits {r : Request Handle} (h : ¬ b.Suits r) (name : String) :
    ∃ e, (target.serve name r).runOn b = (.error (.backend e), b) := by
  cases r with
  | create | position | const | finalize => exact absurd trivial h
  | binary op left right =>
    by_cases hl : b.InUse left
    · have hr := register_of_not_inUse fun hr => h ⟨hl, hr⟩
      obtain ⟨l, hl⟩ := register_of_inUse hl
      refine ⟨.foreignHandle right, ?_⟩
      simp only [Target.serve, target, Step.runOn_bind, Step.runOn_get, Step.runOn_lift, hl, hr]
    · refine ⟨.foreignHandle left, ?_⟩
      simp only [Target.serve, target, Step.runOn_bind, Step.runOn_get, Step.runOn_lift,
        register_of_not_inUse hl]
  | call f args =>
    by_cases hf : (b.functions.get? f).isNone
    · refine ⟨.noFunction f, ?_⟩
      simp only [Target.serve, target, Step.runOn_bind, Step.runOn_get, if_pos hf, Step.runOn_throw]
    · have hsome : (b.functions.get? f).isSome := by
        rwa [Bool.not_eq_true, Option.isNone_eq_false_iff] at hf
      obtain ⟨e, he⟩ := mapM_register_of_not_inUse fun hargs => h ⟨hsome, hargs⟩
      refine ⟨e, ?_⟩
      simp only [Target.serve, target, Step.runOn_bind, Step.runOn_get, if_neg hf, Step.runOn_lift,
        he]
  | ret v =>
    refine ⟨.foreignHandle v, ?_⟩
    simp only [Target.serve, target, Step.runOn_bind, Step.runOn_get, Step.runOn_lift,
      register_of_not_inUse h]

/-- A request is granted exactly when it is due and suits; otherwise nothing changes. -/
theorem answer_granted_or_unchanged (b : Backend Bytecode) (r : Request Handle) :
    ((∃ reply b', (Backend.answer target r).runOn b = (.ok reply, b')) ∧ b.IsDue r ∧
        b.state.Suits r) ∨
      (∃ e, (Backend.answer target r).runOn b = (.error (.backend e), b)) ∧
        ¬ (b.IsDue r ∧ b.state.Suits r) := by
  by_cases hdue : b.IsDue r
  · obtain ⟨phase, hphase⟩ := hdue
    rw [Backend.answer_due target rfl hphase]
    by_cases hsuits : b.state.Suits r
    · obtain ⟨reply, s, hserve⟩ := serve_of_suits hsuits b.unitName
      exact .inl ⟨⟨reply, _, by rw [hserve]⟩, ⟨phase, hphase⟩, hsuits⟩
    · obtain ⟨e, hserve⟩ := serve_of_not_suits hsuits b.unitName
      exact .inr ⟨⟨e, by rw [hserve]⟩, fun h => hsuits h.2⟩
  · exact .inr ⟨Backend.answer_not_due target hdue, fun h => hdue h.1⟩

end Bytecode

end ArithCompiler

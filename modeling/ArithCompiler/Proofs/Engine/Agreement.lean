import ArithCompiler.Proofs.Engine.Library

set_option autoImplicit false

/-!
# Where the two engines agree

Native code computes with the C mathematics library. So does bytecode, except that rounding to an
integer loses the sign of a zero. Nothing else tells the engines apart: they refuse the same trees
with the same faults.
-/

namespace ArithCompiler

open Math (Elementary RunError)
open Resolver (Resolves)
open ArithCompiler.Tree (Subtree)

namespace Engine

def Refuses (g : Engine) (r : Resolver) (e : Expr) (f : Fault) : Prop :=
  (g.compile r .balanced e).outcome = .error f

def Gives (g : Engine) (r : Resolver) (e : Expr) (v : Float) : Prop :=
  ∃ text, (g.compile r .balanced e).outcome = .ok (.code text (.ok v))

/-- Both engines refuse the tree with the same fault, or both give the same number. -/
def Agree (g h : Engine) (r : Resolver) (e : Expr) : Prop :=
  (∃ f, g.Refuses r e f ∧ h.Refuses r e f) ∨ ∃ v, g.Gives r e v ∧ h.Gives r e v

theorem gives_iff {g : Engine} {r : Resolver} {e : Expr} {text : String}
    {value : Except RunError Float} (h : (g.compile r .balanced e).outcome = .ok (.code text value))
    (v : Float) : g.Gives r e v ↔ value = .ok v := by
  rw [Gives, h]
  constructor
  · rintro ⟨_, heq⟩
    cases heq
    rfl
  · rintro rfl
    exact ⟨text, rfl⟩

section Library

variable {c : Elementary} (level : Int) {s : Scope} (hs : s.functions = Math.arities) {e : Expr}
include hs

theorem bytecode_gives_iff (hc : c.Conforms) (h : Resolves (.scope s) e) (v : Float) :
    (Engine.bytecode (Math.routines c)).Gives (.scope s) e v
      ↔ (ieeeEvaluation (Resolver.scope s).value (Math.unsignedSymbol c)).tree e = .ok v := by
  have hlibrary : ∀ q ∈ s.functions, q ∈ Math.arities := fun _ hq => hs ▸ hq
  have houtcome := bytecode_outcome (Math.routines c) (.scope s) e
  have hcheck : (Resolver.scope s).checking.tree e = .ok () := Resolver.check_of_resolves h
  rw [Bytecode.checking_library hlibrary, hcheck] at houtcome
  have hvalue : (evaluation (Resolver.scope s).value (Math.routines c)).tree e
      = (ieeeEvaluation (Resolver.scope s).value (Math.unsignedSymbol c)).tree e := by
    apply Operations.tree_congr
    refine ⟨fun _ _ => rfl, fun _ _ => rfl, ?_, fun _ _ => rfl, fun q hq vs hvs => ?_⟩
    · funext op a b
      cases op with
      | add | subtract | multiply => rfl
      | divide => exact congrArg Except.ok (Math.quotient_eq a b)
    · obtain ⟨n, harity, hcorresponds⟩ := Math.corresponds hc (Scope.library_calls hlibrary h q hq)
      exact hcorresponds vs (by omega)
  rw [gives_iff houtcome, Bytecode.run_unitCode, hvalue]

theorem native_gives_iff (h : Resolves (.scope s) e) (v : Float) :
    (Engine.native c level).Gives (.scope s) e v
      ↔ (ieeeEvaluation (Resolver.scope s).value (Math.symbol c)).tree e = .ok v := by
  obtain ⟨text, w, houtcome, hvalue⟩ := native_outcome c level (fun _ hq => hs ▸ hq) h
  rw [gives_iff houtcome, hvalue]

theorem bytecode_refuses {f : Fault} (h : (Resolver.scope s).check e = .error f) :
    (Engine.bytecode (Math.routines c)).Refuses (.scope s) e f :=
  EngineKind.bytecode.compile_refused c 0 (fun _ hq => hs ▸ hq) h

theorem native_refuses {f : Fault} (h : (Resolver.scope s).check e = .error f) :
    (Engine.native c level).Refuses (.scope s) e f :=
  EngineKind.native.compile_refused c level (fun _ hq => hs ▸ hq) h

end Library

/-! ## Where a sign is lost -/

theorem ieeeEvaluation_call {value : String → Float} {function : String → List Float → Float}
    {f : String} {args : List Expr} {v : Float}
    (h : (ieeeEvaluation value function).tree (.call f args) = .ok v) :
    ∃ vs, (ieeeEvaluation value function).trees args = .ok vs ∧ function f vs = v := by
  obtain ⟨_, -, h⟩ := Except.bind_eq_ok_iff.1 h
  obtain ⟨vs, hvs, h⟩ := Except.bind_eq_ok_iff.1 h
  exact ⟨vs, hvs, Except.ok.inj h⟩

/-- A tree has the value that it has in the library when no sign is lost in it. -/
theorem unsigned_tree {c : Elementary} {value : String → Float} {e : Expr}
    (h : ∀ f ∈ Math.integral, ∀ args, Subtree (.call f args) e →
      (ieeeEvaluation value (Math.symbol c)).tree (.call f args) ≠ .ok (-0.0)) :
    (ieeeEvaluation value (Math.unsignedSymbol c)).tree e
      = (ieeeEvaluation value (Math.symbol c)).tree e := by
  induction e using Tree.exprInduction with
  | number v => rfl
  | name x => rfl
  | binary op l r ihl ihr =>
    rw [Operations.tree, Operations.tree,
      ihl fun f hf args hsub => h f hf args (.left op hsub),
      ihr fun f hf args hsub => h f hf args (.right op hsub)]
    rfl
  | call f args ih =>
    have hargs : (ieeeEvaluation value (Math.unsignedSymbol c)).trees args
        = (ieeeEvaluation value (Math.symbol c)).trees args := by
      have hall : ∀ a ∈ args, (ieeeEvaluation value (Math.unsignedSymbol c)).tree a
          = (ieeeEvaluation value (Math.symbol c)).tree a := fun a ha =>
        ih a ha fun g hg bs hsub => h g hg bs (.argument f ha hsub)
      clear ih h
      induction args with
      | nil => rfl
      | cons a args iha =>
        rw [Operations.trees, Operations.trees, hall a List.mem_cons_self,
          iha fun b hb => hall b (List.mem_cons_of_mem _ hb)]
    obtain ⟨v, hv⟩ := (ieeeEvaluation_total value (Math.symbol c)).tree (.call f args)
    obtain ⟨vs, hvs, rfl⟩ := ieeeEvaluation_call hv
    have hsame : Math.unsignedSymbol c f vs = Math.symbol c f vs := by
      refine Math.unsigned_eq_self fun hf hzero => ?_
      rw [hzero] at hv
      exact h f hf args (.refl _) hv
    rw [hv, Operations.tree, hargs, hvs]
    exact congrArg Except.ok hsame

theorem Gives.unique {g : Engine} {r : Resolver} {e : Expr} {v w : Float} (h : g.Gives r e v)
    (h' : g.Gives r e w) : v = w := by
  obtain ⟨text, h⟩ := h
  obtain ⟨text', h'⟩ := h'
  rw [h] at h'
  cases h'
  rfl

theorem Gives.not_refuses {g : Engine} {r : Resolver} {e : Expr} {v : Float} (h : g.Gives r e v)
    (f : Fault) : ¬ g.Refuses r e f := by
  obtain ⟨text, h⟩ := h
  intro hf
  rw [Refuses, h] at hf
  cases hf

/-- Both engines refuse a tree with the same fault, or both make a unit that gives a number. All
    parts of a tree have the same outcome on both engines, if and only if in native code no rounding
    to an integer in the tree gives a zero with a minus sign. -/
theorem agree_iff {c : Elementary} (hc : c.Conforms) (level : Int)
    (pairs : List (String × Float)) (e : Expr) :
    let scope := Resolver.scope (Scope.math.defineAll pairs)
    let interpreted := Engine.bytecode (Math.routines c)
    let compiled := Engine.native c level
    ((∃ f, interpreted.Refuses scope e f ∧ compiled.Refuses scope e f) ∨
        ∃ v w, interpreted.Gives scope e v ∧ compiled.Gives scope e w) ∧
      ((∀ t, Subtree t e → interpreted.Agree compiled scope t) ↔
        ∀ f ∈ Math.integral, ∀ args, Subtree (.call f args) e →
          ¬ compiled.Gives scope (.call f args) (-0.0)) := by
  intro scope interpreted compiled
  have hs : (Scope.math.defineAll pairs).functions = Math.arities := rfl
  have hcases : ∀ t, (∃ f, interpreted.Refuses scope t f ∧ compiled.Refuses scope t f) ∨
      Resolves scope t := by
    intro t
    cases hcheck : scope.check t with
    | error f => exact .inl ⟨f, bytecode_refuses hs hcheck, native_refuses level hs hcheck⟩
    | ok => exact .inr (Resolver.resolves_of_check hcheck)
  refine ⟨?_, fun h f hf args hsub hgives => ?_, fun h t ht => ?_⟩
  · refine (hcases e).imp_right fun hresolves => ?_
    obtain ⟨v, hv⟩ := (ieeeEvaluation_total scope.value (Math.unsignedSymbol c)).tree e
    obtain ⟨w, hw⟩ := (ieeeEvaluation_total scope.value (Math.symbol c)).tree e
    exact ⟨v, w, (bytecode_gives_iff hs hc hresolves v).2 hv,
      (native_gives_iff level hs hresolves w).2 hw⟩
  · rcases hcases (.call f args) with ⟨fault, -, hrefuses⟩ | hresolves
    · exact hgives.not_refuses fault hrefuses
    · rcases h _ hsub with ⟨fault, -, hrefuses⟩ | ⟨v, hinterpreted, hcompiled⟩
      · exact hgives.not_refuses fault hrefuses
      · obtain rfl := hgives.unique hcompiled
        have hv := (bytecode_gives_iff hs hc hresolves _).1 hinterpreted
        obtain ⟨vs, -, hzero⟩ := ieeeEvaluation_call hv
        exact Math.unsigned_ne hf _ hzero
  · rcases hcases t with hrefuses | hresolves
    · exact .inl hrefuses
    · obtain ⟨v, hv⟩ := (ieeeEvaluation_total scope.value (Math.symbol c)).tree t
      have hsame : (ieeeEvaluation scope.value (Math.unsignedSymbol c)).tree t
          = (ieeeEvaluation scope.value (Math.symbol c)).tree t := by
        refine unsigned_tree fun f hf args hsub hzero => ?_
        refine h f hf args (hsub.trans ht) ?_
        exact (native_gives_iff level hs (hresolves.subtree hsub) _).2 hzero
      exact .inr ⟨v, (bytecode_gives_iff hs hc hresolves v).2 (hsame.trans hv),
        (native_gives_iff level hs hresolves v).2 hv⟩

/-- Functions that are constant but for their poles, with the values of the library at zero. -/
def constant : Elementary where
  sin _ := 0.0
  cos _ := 1.0
  tan _ := 0.0
  asin _ := 0.0
  acos _ := 1.5707963267948966
  atan _ := 0.0
  exp _ := 1.0
  log x := if x == 0.0 then Number.negativeInfinity else 0.0
  log10 x := if x == 0.0 then Number.negativeInfinity else 0.0
  pow x y :=
    if x == 0.0 && y < 0.0 then
      if Number.isOddInteger y then Number.withSignOf Number.positiveInfinity x
      else Number.positiveInfinity
    else 1.0
  atan2 _ _ := 0.0
  others _ := none

theorem constant_conforms : constant.Conforms where
  bounded := by
    intro f hf x _
    simp only [List.mem_cons, List.not_mem_nil, or_false] at hf
    rcases hf with rfl | rfl | rfl | rfl | rfl <;> simp only [constant] <;> decide
  exp_overflow x _ h := by
    simp only [constant] at h
    exact absurd h (by decide)
  logarithm_pole := by
    intro f hf x hx
    simp only [List.mem_cons, List.not_mem_nil, or_false] at hf
    rcases hf with rfl | rfl <;> exact if_pos hx
  logarithm_bounded := by
    intro f hf x _ hx
    simp only [List.mem_cons, List.not_mem_nil, or_false] at hf
    rcases hf with rfl | rfl <;> simp only [constant, if_neg hx] <;> decide
  pow_pole x y hx _ hy := if_pos (Bool.and_eq_true_iff.2 ⟨hx, decide_eq_true hy⟩)
  pow_zero_bounded x y _ _ hy := by
    have hpole : ¬ (x == 0.0 && y < 0.0) = true := fun h =>
      hy (of_decide_eq_true (Bool.and_eq_true_iff.1 h).2)
    simp only [constant, if_neg hpole]
    decide
  pow_overflow x y _ _ hx hinf := by
    have hpole : ¬ (x == 0.0 && y < 0.0) = true := fun h => hx (Bool.and_eq_true_iff.1 h).1
    simp only [constant, if_neg hpole] at hinf
    exact absurd hinf (by decide)

theorem agree_iff_exp_over_ceil :
    constant.Conforms ∧ ∀ t, Subtree t (.binary .divide (.call "exp" [.name "x"])
        (.call "ceil" [.number 0.5])) →
      (Engine.bytecode (Math.routines constant)).Agree (Engine.native constant 0)
        (.scope (Scope.math.defineAll [("x", 0.0)])) t := by
  refine ⟨constant_conforms, (agree_iff constant_conforms 0 [("x", 0.0)] _).2.2 ?_⟩
  intro f hf args hsub hgives
  cases hsub with
  | left op hsub =>
    cases hsub with
    | refl => exact absurd hf (by decide)
    | argument g ha hsub =>
      rw [List.mem_singleton.1 ha] at hsub
      cases hsub
  | right op hsub =>
    cases hsub with
    | refl =>
      have hresolves : Resolves (.scope (Scope.math.defineAll [("x", 0.0)]))
          (.call "ceil" [.number 0.5]) := Resolver.resolves_scope_iff.2 (by decide)
      have hvalue := (native_gives_iff 0 rfl hresolves (-0.0)).1 hgives
      have hzero : Number.toIntegral .up 0.5 = -0.0 := Except.ok.inj hvalue
      exact absurd hzero (by decide)
    | argument g ha hsub =>
      rw [List.mem_singleton.1 ha] at hsub
      cases hsub

end Engine

end ArithCompiler

import ArithCompiler.Proofs.Bytecode.Outcome
import ArithCompiler.Proofs.Number.Kinds
import ArithCompiler.Proofs.Tree.RoundTrip

set_option autoImplicit false

/-!
# Texts keep the meaning of their trees

The text of a tree is read as a tree of its own where numbers are not finite: names stand for them,
below a minus if they are negative. Where these names mean what they say, nothing comes of the one
tree that does not come of the other.
-/

namespace ArithCompiler

open Number (view view_inj positiveInfinity notANumber)
open Math (FunctionTable)

/-- The operations that do at a number what is done in the tree that its text stands for. -/
def Operations.rereading {m : Type → Type} {ν : Type} [Monad m] (o : Operations m ν) :
    Operations m ν :=
  { o with number v := o.tree (Tree.rereadNumber v) }

theorem Operations.tree_reread {m : Type → Type} {ν : Type} [Monad m] [LawfulMonad m]
    (o : Operations m ν) (e : Expr) : o.tree e.reread = o.rereading.tree e := by
  induction e using Tree.exprInduction with
  | number v => rfl
  | name x => rfl
  | binary op l r ihl ihr =>
    rw [Tree.reread, Operations.tree, Operations.tree, ihl, ihr]
    rfl
  | call f args ih =>
    have hargs : o.trees (Tree.rereadAll args) = o.rereading.trees args := by
      clear f
      induction args with
      | nil => rfl
      | cons a args iha =>
        rw [Tree.rereadAll, Operations.trees, Operations.trees, ih a List.mem_cons_self,
          iha fun b hb => ih b (List.mem_cons_of_mem _ hb)]
    rw [Tree.reread, Operations.tree, Operations.tree, hargs]
    rfl

/-- When numbers keep their meaning when they are read again, so do trees. -/
theorem Operations.tree_reread_eq {m : Type → Type} {ν : Type} [Monad m] [LawfulMonad m]
    {o : Operations m ν} (h : ∀ v, o.tree (Tree.rereadNumber v) = o.number v) (e : Expr) :
    o.tree e.reread = o.tree e := by
  rw [tree_reread]
  exact tree_congr ⟨fun v _ => h v, fun _ _ => rfl, rfl, fun _ _ => rfl, fun _ _ _ _ => rfl⟩

section Numbers

variable {s : Scope} (hinf : s.constants.get? "inf" = some positiveInfinity)
  (hnan : s.constants.get? "nan" = some notANumber) (functions : FunctionTable)
include hinf hnan

/-- The names of numbers that are not finite are not refused. -/
theorem Bytecode.checking_rereadNumber (v : Float) :
    (checking functions (.scope s)).tree (Tree.rereadNumber v) = .ok () := by
  have hname : ∀ x, (s.constants.get? x).isSome →
      (checking functions (.scope s)).name x = .ok () := fun x hx => if_pos hx
  rw [Tree.rereadNumber]
  cases view v with
  | notANumber => exact hname "nan" (by rw [hnan]; rfl)
  | infinity sign =>
    have hknown := hname "inf" (by rw [hinf]; rfl)
    cases sign with
    | positive => exact hknown
    | negative => exact Except.bind_eq_ok_iff.2 ⟨(), rfl, Except.bind_eq_ok_iff.2 ⟨(), hknown, rfl⟩⟩
  | zero sign => rfl
  | finite sign m e hm => rfl

/-- Zero less infinity is the infinity with a minus. -/
theorem evaluation_rereadNumber (v : Float) :
    (evaluation (Resolver.scope s).value functions).tree (Tree.rereadNumber v) = .ok v := by
  have hvalue : ∀ {x w}, s.constants.get? x = some w → (Resolver.scope s).value x = w := by
    intro x w hx
    change (s.constants.get? x).getD notANumber = w
    rw [hx]
    rfl
  rw [Tree.rereadNumber]
  cases hv : view v with
  | notANumber =>
    have heq : v = notANumber := Number.eq_notANumber (Number.isNaN_iff.2 hv)
    exact congrArg Except.ok ((hvalue hnan).trans heq.symm)
  | infinity sign =>
    cases sign with
    | positive =>
      have heq : v = positiveInfinity := view_inj hv
      exact congrArg Except.ok ((hvalue hinf).trans heq.symm)
    | negative =>
      have heq : v = Number.negativeInfinity := view_inj hv
      have hdifference : (0.0 : Float) - positiveInfinity = Number.negativeInfinity := by decide
      change Except.ok (0.0 - (Resolver.scope s).value "inf") = _
      rw [hvalue hinf, hdifference, heq]
  | zero sign => rfl
  | finite sign m e hm => rfl

/-- The text of every tree is read, and on the bytecode engine the tree that is read has the outcome
    of the tree itself: the same number, or the same fault. Names have to be identifiers, and the
    scope has to know infinity and what is not a number by their texts. -/
theorem Engine.result_parse_toSource {e : Expr} (he : e.Nameable) :
    ∃ e', parse e.toSource = .ok e' ∧
      (Engine.bytecode functions).result (.scope s) e'
        = (Engine.bytecode functions).result (.scope s) e := by
  refine ⟨e.reread, Tree.parse_reread he, ?_⟩
  have hcheck : (Bytecode.checking functions (.scope s)).tree e.reread
      = (Bytecode.checking functions (.scope s)).tree e :=
    Operations.tree_reread_eq (fun v => Bytecode.checking_rereadNumber hinf hnan functions v) e
  have hvalue : (evaluation (Resolver.scope s).value functions).tree e.reread
      = (evaluation (Resolver.scope s).value functions).tree e :=
    Operations.tree_reread_eq (fun v => evaluation_rereadNumber hinf hnan functions v) e
  rw [bytecode_result, bytecode_result, hcheck, hvalue]

end Numbers

/-- Minus infinity is read as a difference, and is a factor all the same. -/
theorem Engine.result_parse_toSource_minus_infinity :
    let s := Scope.math.defineAll [("x", 4.0)]
    let e : Expr := .binary .subtract (.number 2.0)
      (.binary .multiply (.number Number.negativeInfinity) (.name "x"))
    (s.constants.get? "inf" = some positiveInfinity ∧ s.constants.get? "nan" = some notANumber ∧
      e.Nameable) ∧
    e.toSource = "2.0 - -inf * x" ∧
      ∃ e', parse "2.0 - -inf * x" = .ok e' ∧
        (Engine.bytecode []).result (.scope s) e' = (Engine.bytecode []).result (.scope s) e := by
  intro s e
  have hinf : s.constants.get? "inf" = some positiveInfinity := rfl
  have hnan : s.constants.get? "nan" = some notANumber := rfl
  have hx : IsIdentifier "x" := ⟨'x', [], rfl, by decide, by simp⟩
  have he : e.Nameable := by
    refine ⟨?_, nofun⟩
    simpa [e, Tree.names, Tree.collect, Tree.collectAll] using hx
  have htext : e.toSource = "2.0 - -inf * x" := by decide
  refine ⟨⟨hinf, hnan, he⟩, htext, ?_⟩
  rw [← htext]
  exact Engine.result_parse_toSource hinf hnan [] he

end ArithCompiler

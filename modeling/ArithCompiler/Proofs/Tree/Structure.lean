import ArithCompiler.Tree.Basic

set_option autoImplicit false

/-!
# Induction on trees, and what a tree mentions

An expression has no foreign values, so a property of all expressions follows from four cases. The
numbers, names and calls of a tree are listed in the order in which its value is computed: the
parts of a node from left to right, and then the node.
-/

namespace ArithCompiler.Tree

/-- Induction on expressions; for a call the property holds of all arguments. -/
@[elab_as_elim]
theorem exprInduction {motive : Expr → Prop} (number : ∀ v, motive (.number v))
    (name : ∀ x, motive (.name x))
    (binary : ∀ op l r, motive l → motive r → motive (.binary op l r))
    (call : ∀ f args, (∀ a ∈ args, motive a) → motive (.call f args)) (e : Expr) : motive e := by
  refine Tree.rec (motive_2 := fun args => ∀ a ∈ args, motive a) number name binary call
    (fun x => nomatch x) ?_ ?_ e
  · intro a ha
    cases ha
  · intro a args iha ihargs b hb
    rcases List.mem_cons.1 hb with rfl | hb
    · exact iha
    · exact ihargs b hb

inductive Subtree : Expr → Expr → Prop
  | refl (e : Expr) : Subtree e e
  | left {t l r : Expr} (op : Operator) : Subtree t l → Subtree t (.binary op l r)
  | right {t l r : Expr} (op : Operator) : Subtree t r → Subtree t (.binary op l r)
  | argument {t a : Expr} {args : List Expr} (f : String) :
      a ∈ args → Subtree t a → Subtree t (.call f args)

theorem Subtree.trans {s t e : Expr} (h : Subtree s t) (h' : Subtree t e) : Subtree s e := by
  induction h' with
  | refl => exact h
  | left op _ ih => exact .left op ih
  | right op _ ih => exact .right op ih
  | argument f ha _ ih => exact .argument f ha ih

section Collect

variable {α : Type} (atNumber : Float → List α) (atName : String → List α)
  (atCall : String → Nat → List α)

mutual
/-- What the nodes of a tree give, each node after its parts. -/
def collect : Expr → List α
  | number v => atNumber v
  | name x => atName x
  | binary _ l r => collect l ++ collect r
  | call f args => collectAll args ++ atCall f args.length
  | foreign x => nomatch x

def collectAll : List Expr → List α
  | [] => []
  | e :: es => collect e ++ collectAll es
end

theorem mem_collectAll {y : α} {es : List Expr} :
    y ∈ collectAll atNumber atName atCall es
      ↔ ∃ e ∈ es, y ∈ collect atNumber atName atCall e := by
  induction es with
  | nil => simp [collectAll]
  | cons e es ih => simp [collectAll, ih]

theorem mem_collect_call {y : α} {f : String} {args : List Expr} :
    y ∈ collect atNumber atName atCall (.call f args)
      ↔ (∃ a ∈ args, y ∈ collect atNumber atName atCall a) ∨ y ∈ atCall f args.length := by
  rw [collect, List.mem_append, mem_collectAll]

theorem mem_collect_subtree {y : α} {t e : Expr} (ht : Subtree t e)
    (hy : y ∈ collect atNumber atName atCall t) : y ∈ collect atNumber atName atCall e := by
  induction ht with
  | refl => exact hy
  | left op _ ih => exact List.mem_append_left _ ih
  | right op _ ih => exact List.mem_append_right _ ih
  | argument f ha _ ih =>
    exact (mem_collect_call atNumber atName atCall).2 (.inl ⟨_, ha, ih⟩)

end Collect

def numbers : Expr → List Float := collect (fun v => [v]) (fun _ => []) fun _ _ => []

def names : Expr → List String := collect (fun _ => []) (fun x => [x]) fun _ _ => []

def calls : Expr → List (String × Nat) := collect (fun _ => []) (fun _ => []) fun f n => [(f, n)]

end ArithCompiler.Tree

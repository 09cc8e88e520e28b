import ArithCompiler.Proofs.Tree.Structure

set_option autoImplicit false

/-!
# Going through a tree in order

One recursion over trees serves the evaluator, the code generator, and whatever else goes through
the nodes from left to right, parts before the node. What is done at the nodes is a parameter, and
so is the monad in which it is done.
-/

namespace ArithCompiler

variable {m : Type → Type} {ν : Type}

/-- What is done at each node, given the values of its parts; a call is entered before its arguments
    are looked at. -/
structure Operations (m : Type → Type) (ν : Type) where
  number : Float → m ν
  name : String → m ν
  binary : Operator → ν → ν → m ν
  enter : String → m Unit
  call : String → List ν → m ν

/-! ## What a computation is known to return -/

def Returns [Functor m] {α : Type} (x : m α) (P : α → Prop) : Prop :=
  ∃ y : m { a // P a }, Subtype.val <$> y = x

namespace Returns

variable [Monad m] [LawfulMonad m] {α β : Type} {x : m α} {P : α → Prop}

theorem pure {a : α} (h : P a) : Returns (Pure.pure a : m α) P :=
  ⟨Pure.pure ⟨a, h⟩, map_pure ..⟩

theorem trivial (x : m α) : Returns x fun _ => True :=
  ⟨(⟨·, True.intro⟩) <$> x, by simp⟩

theorem imp {Q : α → Prop} (hx : Returns x P) (h : ∀ a, P a → Q a) : Returns x Q := by
  obtain ⟨y, rfl⟩ := hx
  exact ⟨(fun a => ⟨a.1, h a.1 a.2⟩) <$> y, by simp⟩

theorem bind {f : α → m β} {Q : β → Prop} (hx : Returns x P) (hf : ∀ a, P a → Returns (f a) Q) :
    Returns (x >>= f) Q := by
  obtain ⟨y, rfl⟩ := hx
  refine ⟨y >>= fun a => (hf a.1 a.2).choose, ?_⟩
  rw [map_bind, bind_map_left]
  exact bind_congr fun a => (hf a.1 a.2).choose_spec

/-- Only values that are returned matter to what follows. -/
theorem bind_eq {f g : α → m β} (hx : Returns x P) (hfg : ∀ a, P a → f a = g a) :
    x >>= f = x >>= g := by
  obtain ⟨y, rfl⟩ := hx
  rw [bind_map_left, bind_map_left]
  exact bind_congr fun a => hfg a.1 a.2

end Returns

namespace Operations

section Trees

variable [Monad m]

mutual
def tree (o : Operations m ν) : Expr → m ν
  | .number v => o.number v
  | .name x => o.name x
  | .binary op l r => do
    let a ← o.tree l
    let b ← o.tree r
    o.binary op a b
  | .call f args => do
    o.enter f
    let vs ← o.trees args
    o.call f vs
  | .foreign x => nomatch x

def trees (o : Operations m ν) : List Expr → m (List ν)
  | [] => pure []
  | e :: es => do
    let v ← o.tree e
    let vs ← o.trees es
    return v :: vs
end

variable [LawfulMonad m]

theorem trees_length (o : Operations m ν) (es : List Expr) :
    Returns (o.trees es) fun vs => vs.length = es.length := by
  induction es with
  | nil => exact .pure rfl
  | cons e es ih =>
    rw [trees]
    refine (Returns.trivial _).bind fun v _ => ih.bind fun vs hvs => .pure ?_
    rw [List.length_cons, hvs, List.length_cons]

end Trees

structure AgreeOn (o o' : Operations m ν) (e : Expr) : Prop where
  number : ∀ v ∈ e.numbers, o.number v = o'.number v
  name : ∀ x ∈ e.names, o.name x = o'.name x
  binary : o.binary = o'.binary
  enter : ∀ c ∈ e.calls, o.enter c.1 = o'.enter c.1
  call : ∀ c ∈ e.calls, ∀ vs, vs.length = c.2 → o.call c.1 vs = o'.call c.1 vs

namespace AgreeOn

variable {o o' : Operations m ν}

theorem subtree {t e : Expr} (h : AgreeOn o o' e) (ht : Tree.Subtree t e) : AgreeOn o o' t :=
  ⟨fun v hv => h.number v (Tree.mem_collect_subtree _ _ _ ht hv),
    fun x hx => h.name x (Tree.mem_collect_subtree _ _ _ ht hx), h.binary,
    fun c hc => h.enter c (Tree.mem_collect_subtree _ _ _ ht hc),
    fun c hc => h.call c (Tree.mem_collect_subtree _ _ _ ht hc)⟩

theorem mem_calls (f : String) (args : List Expr) :
    (f, args.length) ∈ Tree.calls (.call f args) :=
  (Tree.mem_collect_call _ _ _).2 (.inr (List.mem_singleton.2 rfl))

end AgreeOn

variable [Monad m] [LawfulMonad m] {o o' : Operations m ν}

theorem tree_congr {e : Expr} (h : AgreeOn o o' e) : o.tree e = o'.tree e := by
  induction e using Tree.exprInduction with
  | number v => exact h.number v (List.mem_singleton.2 rfl)
  | name x => exact h.name x (List.mem_singleton.2 rfl)
  | binary op l r ihl ihr =>
    rw [tree, tree, ihl (h.subtree (.left op (.refl l))), ihr (h.subtree (.right op (.refl r))),
      h.binary]
  | call f args ih =>
    have hargs : o.trees args = o'.trees args := by
      have hall : ∀ a ∈ args, o.tree a = o'.tree a := fun a ha =>
        ih a ha (h.subtree (.argument f ha (.refl a)))
      clear ih h
      induction args with
      | nil => rfl
      | cons a args iha =>
        rw [trees, trees, hall a List.mem_cons_self,
          iha fun b hb => hall b (List.mem_cons_of_mem _ hb)]
    have hmem := AgreeOn.mem_calls f args
    rw [tree, tree, h.enter _ hmem, hargs]
    refine bind_congr fun _ => ?_
    exact (o'.trees_length args).bind_eq fun vs hvs => h.call _ hmem vs hvs

structure Total {ε : Type} (o : Operations (Except ε) ν) : Prop where
  number : ∀ v, ∃ a, o.number v = .ok a
  name : ∀ x, ∃ a, o.name x = .ok a
  binary : ∀ op a b, ∃ d, o.binary op a b = .ok d
  enter : ∀ f, o.enter f = .ok ()
  call : ∀ f vs, ∃ a, o.call f vs = .ok a

theorem Total.tree {ε : Type} {o : Operations (Except ε) ν} (h : o.Total) (e : Expr) :
    ∃ a, o.tree e = .ok a := by
  induction e using Tree.exprInduction with
  | number v => exact h.number v
  | name x => exact h.name x
  | binary op l r ihl ihr =>
    obtain ⟨a, ha⟩ := ihl
    obtain ⟨b, hb⟩ := ihr
    rw [Operations.tree, ha, hb]
    exact h.binary op a b
  | call f args ih =>
    obtain ⟨vs, hvs⟩ : ∃ vs, o.trees args = .ok vs := by
      clear f
      induction args with
      | nil => exact ⟨[], rfl⟩
      | cons a args iha =>
        obtain ⟨v, hv⟩ := ih a List.mem_cons_self
        obtain ⟨vs, hvs⟩ := iha fun b hb => ih b (List.mem_cons_of_mem _ hb)
        rw [Operations.trees, hv, hvs]
        exact ⟨v :: vs, rfl⟩
    rw [Operations.tree, h.enter, hvs]
    exact h.call f vs

end Operations

end ArithCompiler

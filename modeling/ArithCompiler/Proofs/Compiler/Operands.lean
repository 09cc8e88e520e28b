import ArithCompiler.Compiler
import ArithCompiler.Proofs.Tree.Operations

set_option autoImplicit false

/-!
# The operand stack

Compiling a tree needs no stack: a recursion that passes handles on as values asks the backend for
the same, in the same order. The stack of the compiler holds these values, above what it held
before.
-/

namespace ArithCompiler

namespace Resolver

def constant? : Resolver → String → Option Float
  | scope s, x => s.constants.get? x
  | missing, _ => none
  | refusing, _ => none

def enter (r : Resolver) (f : String) : Except Fault Unit :=
  if r = missing then .error (.unsupported (.callWithoutResolver f)) else .ok ()

def allow (f : String) (count : Nat) : Resolver → Except Fault Unit
  | missing => .error (.unsupported (.callWithoutResolver f))
  | refusing => .error (.unsupported (.refusedCall f))
  | scope s => s.admit? f count

end Resolver

variable {σ ν υ : Type}

namespace Target

def operations (t : Target σ ν υ) (r : Resolver) : Operations (Step σ) ν where
  number := t.const
  name x :=
    match r.constant? x with
    | some v => t.const v
    | none => throw (.unbound x)
  binary := t.binary
  enter f := liftM (r.enter f)
  call f args := do
    liftM (r.allow f args.length)
    t.call f args

def opening (t : Target σ ν υ) : Step σ Unit := do
  t.create entryPoint .entry
  t.position

def closing (t : Target σ ν υ) (v : ν) : Step σ υ := do
  t.ret v
  t.finalize entryPoint

/-- A whole compilation without an operand stack. -/
def unit (t : Target σ ν υ) (r : Resolver) (e : Expr) : Step σ υ := do
  t.opening
  let v ← (t.operations r).tree e
  t.closing v

end Target

def Backend.guarded (t : Target σ ν υ) : Target (Backend σ) ν υ where
  create := Backend.create t
  position := Backend.position t
  const := Backend.const t
  binary := Backend.binary t
  call := Backend.call t
  ret := Backend.ret t
  finalize _ := Backend.finalize t

theorem Returns.of_runOn {α : Type} {x : Step σ α} {P : α → Prop} (h : Returns x P) {s s' : σ}
    {a : α} (hrun : x.runOn s = (.ok a, s')) : P a := by
  obtain ⟨y, rfl⟩ := h
  rw [Step.runOn_map] at hrun
  cases hy : (y.runOn s).1 with
  | ok b =>
    rw [hy] at hrun
    obtain ⟨rfl, -⟩ : b.1 = a ∧ _ := by simpa [Except.map] using hrun
    exact b.2
  | error f =>
    rw [hy] at hrun
    cases hrun

/-! ## What stands on the stack -/

/-- The code asks the backend for the values and leaves them on the stack, the last one on top;
    below them, and below what a fault leaves, is what was there before. -/
def Pushes (code : Emit σ ν Unit) (values : Step (Backend σ) (List ν)) : Prop :=
  ∀ w, ∃ rest log, code.runOn w = match values.runOn w.backend with
    | (.ok vs, b) => (.ok (), ⟨b, vs.reverse ++ w.stack, w.log ++ log⟩)
    | (.error f, b) => (.error f, ⟨b, rest ++ w.stack, w.log ++ log⟩)

def Replaces (n : Nat) (code : Emit σ ν Unit) (value : List ν → Step (Backend σ) ν) : Prop :=
  ∀ (vs : List ν) (w : Work σ ν), vs.length = n → ∃ log,
    code.runOn { w with stack := vs.reverse ++ w.stack } = match (value vs).runOn w.backend with
      | (.ok v, b) => (.ok (), ⟨b, v :: w.stack, w.log ++ log⟩)
      | (.error f, b) => (.error f, ⟨b, w.stack, w.log ++ log⟩)

namespace Pushes

variable {code code' : Emit σ ν Unit} {values values' : Step (Backend σ) (List ν)}

theorem nothing : Pushes (pure () : Emit σ ν Unit) (pure []) := by
  intro w
  exact ⟨[], [], by simp⟩

theorem append (h : Pushes code values) (h' : Pushes code' values') :
    Pushes (do code; code') (do let vs ← values; let ws ← values'; return vs ++ ws) := by
  intro w
  obtain ⟨rest, log, hrun⟩ := h w
  cases hvalues : values.runOn w.backend with
  | mk outcome b =>
    rw [hvalues] at hrun
    cases outcome with
    | error f => exact ⟨rest, log, by rw [Step.runOn_bind, hrun, Step.runOn_bind, hvalues]⟩
    | ok vs =>
      obtain ⟨rest', log', hrun'⟩ := h' ⟨b, vs.reverse ++ w.stack, w.log ++ log⟩
      refine ⟨rest' ++ vs.reverse, log ++ log', ?_⟩
      rw [Step.runOn_bind_ok hrun, hrun', Step.runOn_bind_ok hvalues, Step.runOn_bind]
      cases values'.runOn b with
      | mk outcome' b' => cases outcome' <;> simp

theorem replace {n : Nat} {value : List ν → Step (Backend σ) ν} (h : Pushes code values)
    (hvalues : Returns values fun vs => vs.length = n) (h' : Replaces n code' value) :
    Pushes (do code; code') (do let vs ← values; let v ← value vs; return [v]) := by
  intro w
  obtain ⟨rest, log, hrun⟩ := h w
  cases hv : values.runOn w.backend with
  | mk outcome b =>
    rw [hv] at hrun
    cases outcome with
    | error f => exact ⟨rest, log, by rw [Step.runOn_bind, hrun, Step.runOn_bind, hv]⟩
    | ok vs =>
      obtain ⟨log', hrun'⟩ := h' vs ⟨b, w.stack, w.log ++ log⟩ (hvalues.of_runOn hv)
      refine ⟨[], log ++ log', ?_⟩
      rw [Step.runOn_bind_ok hrun, hrun', Step.runOn_bind_ok hv, Step.runOn_bind]
      cases (value vs).runOn b with
      | mk outcome' b' => cases outcome' <;> simp

end Pushes

namespace Compiler

variable {c : Compiler σ ν υ}

def operations (c : Compiler σ ν υ) : Operations (Step (Backend σ)) ν :=
  (Backend.guarded c.target).operations c.resolver

theorem leaf_balanced (hc : c.imbalance = .balanced) (code : Emit σ ν Unit) :
    c.leaf code = code := by
  rw [leaf, hc]

theorem noted_pushes (message : String) (operation : Step (Backend σ) ν) :
    Pushes (do Emit.note message; Emit.push operation) ((fun v => [v]) <$> operation) := by
  intro w
  refine ⟨[], [.compiler .debug message], ?_⟩
  simp only [Emit.note, Emit.push, Emit.perform, Step.runOn_bind, Step.runOn_modify,
    Step.runOn_within, Step.runOn_map]
  cases operation.runOn w.backend with
  | mk outcome b => cases outcome <;> simp [Except.map]

theorem number_pushes (hc : c.imbalance = .balanced) (v : Float) :
    Pushes (c.number v) ((fun v => [v]) <$> c.operations.number v) := by
  rw [number, leaf_balanced hc]
  exact noted_pushes _ _

theorem operations_name (c : Compiler σ ν υ) (x : String) :
    c.operations.name x = c.resolver.ident c.target x := by
  unfold operations Target.operations Resolver.ident Resolver.constant?
  cases c.resolver with
  | missing => rfl
  | refusing => rfl
  | scope s =>
    cases h : s.constants.get? x with
    | none => simp only [h]
    | some v =>
      simp only [h]
      rfl

theorem operations_call (c : Compiler σ ν υ) (f : String) (args : List ν) :
    c.operations.call f args = c.resolver.call c.target f args := by
  unfold operations Target.operations Resolver.call Resolver.allow
  cases c.resolver <;> rfl

theorem name_pushes (hc : c.imbalance = .balanced) (x : String) :
    Pushes (c.name x) ((fun v => [v]) <$> c.operations.name x) := by
  rw [name, leaf_balanced hc, operations_name]
  by_cases hr : c.resolver = .missing
  · intro w
    refine ⟨[], [], ?_⟩
    rw [if_pos hr, hr]
    simp [Resolver.ident]
  · rw [if_neg hr]
    exact noted_pushes _ _

theorem operator_replaces (hc : c.imbalance = .balanced) (op : Operator) :
    Replaces 2 (c.operator op) fun
      | [a, b] => c.operations.binary op a b
      | _ => throw .hookMissing := by
  intro vs w hvs
  obtain ⟨a, b, rfl⟩ : ∃ a b, vs = [a, b] := by
    match vs, hvs with
    | [a, b], _ => exact ⟨a, b, rfl⟩
  refine ⟨[.compiler .debug ("binary " ++ op.name)], ?_⟩
  simp only [operator, Emit.pop, Emit.note, Emit.push, Emit.perform, Step.runOn_bind,
    Step.runOn_get, Step.runOn_set, Step.runOn_modify, Step.runOn_within, Step.runOn_pure, hc,
    List.reverse_cons, List.reverse_nil, List.nil_append, List.cons_append]
  change _ = match (Backend.binary c.target op a b).runOn w.backend with
    | (.ok v, b) => _
    | (.error f, b) => _
  cases (Backend.binary c.target op a b).runOn w.backend with
  | mk outcome s => cases outcome <;> simp

theorem invocation_replaces (f : String) (count : Nat) :
    Replaces count (c.invocation f count) (c.operations.call f) := by
  intro vs w hvs
  refine ⟨[.compiler .debug ("call " ++ f ++ "/" ++ toString count)], ?_⟩
  have htake : (vs.reverse ++ w.stack).take count = vs.reverse := by
    rw [← hvs, ← List.length_reverse, List.take_left]
  have hdrop : (vs.reverse ++ w.stack).drop count = w.stack := by
    rw [← hvs, ← List.length_reverse, List.drop_left]
  have henough : ¬ (vs.reverse ++ w.stack).length < count := by
    rw [List.length_append, List.length_reverse]
    omega
  rw [operations_call]
  simp only [invocation, Emit.popMany, Emit.note, Emit.push, Emit.perform, Step.runOn_bind,
    Step.runOn_get, Step.runOn_set, Step.runOn_modify, Step.runOn_within, Step.runOn_pure,
    if_neg henough, htake, hdrop, List.reverse_reverse]
  cases (c.resolver.call c.target f vs).runOn w.backend with
  | mk outcome s => cases outcome <;> simp

theorem requireResolver_runOn (f : String) (w : Work σ ν) :
    (c.requireResolver f).runOn w = (c.resolver.enter f, w) := by
  unfold requireResolver Resolver.enter
  split <;> rfl

theorem emit_pushes (hc : c.imbalance = .balanced) (e : Expr) :
    Pushes (c.emit e) ((fun v => [v]) <$> c.operations.tree e) := by
  induction e using Tree.exprInduction with
  | number v => exact number_pushes hc v
  | name x => exact name_pushes hc x
  | binary op l r ihl ihr =>
    have hvalues : (do
        let vs ← (fun v => [v]) <$> c.operations.tree l
        let ws ← (fun v => [v]) <$> c.operations.tree r
        return vs ++ ws : Step (Backend σ) (List ν))
          = (do return [← c.operations.tree l, ← c.operations.tree r]) := by
      simp
    have hreturns : Returns (do return [← c.operations.tree l, ← c.operations.tree r] :
        Step (Backend σ) (List ν)) fun vs => vs.length = 2 :=
      (Returns.trivial _).bind fun a _ => (Returns.trivial _).bind fun b _ => .pure rfl
    have hpushes := ihl.append ihr
    rw [hvalues] at hpushes
    have h := hpushes.replace hreturns (operator_replaces hc op)
    rw [emit, Operations.tree]
    simpa using h
  | call f args ih =>
    have hargs : Pushes (c.emitAll args) (c.operations.trees args) := by
      clear f
      induction args with
      | nil => exact .nothing
      | cons a args iha =>
        have hrest := iha fun b hb => ih b (List.mem_cons_of_mem _ hb)
        have h := (ih a List.mem_cons_self).append hrest
        rw [emitAll, Operations.trees]
        simpa using h
    have h := hargs.replace (c.operations.trees_length args) (c.invocation_replaces f args.length)
    have henter : c.operations.enter f = liftM (c.resolver.enter f) := rfl
    intro w
    rw [emit, Operations.tree, henter, Step.runOn_bind, requireResolver_runOn, Step.runOn_map,
      Step.runOn_bind, Step.runOn_lift]
    cases c.resolver.enter f with
    | error fault => exact ⟨[], [], by simp [Except.map]⟩
    | ok =>
      obtain ⟨rest, log, hrun⟩ := h w
      refine ⟨rest, log, hrun.trans ?_⟩
      simp only [← Step.runOn_map]
      simp

/-! ## The whole compilation -/

theorem opening_runOn (c : Compiler σ ν υ) (w : Work σ ν) :
    ∃ log, c.opening.runOn w = (((Backend.guarded c.target).opening.runOn w.backend).1,
      ⟨((Backend.guarded c.target).opening.runOn w.backend).2, [], log⟩) := by
  refine ⟨w.log ++ [.compiler .debug ("creating unit " ++ entryPoint ++ " "
    ++ Signature.entry.display)], ?_⟩
  simp only [opening, Target.opening, Backend.guarded, Emit.note, Emit.perform, Step.runOn_bind,
    Step.runOn_modify, Step.runOn_within]
  cases (Backend.create c.target entryPoint .entry).runOn w.backend with
  | mk outcome b => cases outcome <;> rfl

theorem closing_runOn (c : Compiler σ ν υ) (v : ν) (b : Backend σ) (log : List LogEntry) :
    ∃ log', c.closing.runOn ⟨b, [v], log⟩
      = ((((Backend.guarded c.target).closing v).runOn b).1,
          ⟨(((Backend.guarded c.target).closing v).runOn b).2, [], log'⟩) := by
  simp only [closing, Target.closing, Backend.guarded, Emit.pop, Emit.note, Emit.perform,
    Step.runOn_bind, Step.runOn_get, Step.runOn_set, Step.runOn_pure, Step.runOn_modify,
    Step.runOn_within, List.length_cons, List.length_nil, ne_eq, Nat.reduceAdd,
    not_true_eq_false, if_false]
  cases (Backend.ret c.target v).runOn b with
  | mk outcome b' =>
    cases outcome with
    | error f => exact ⟨log, rfl⟩
    | ok =>
      simp only
      cases (Backend.finalize c.target).runOn b' with
      | mk outcome b'' => cases outcome <;> exact ⟨_, rfl⟩

/-- Compiling has the outcome of the recursion without a stack, and leaves the backend as that does;
    when it succeeds the stack is empty. -/
theorem compile_runOn (hc : c.imbalance = .balanced) (e : Expr) (w : Work σ ν) :
    ∃ stack log, (c.compile e).runOn w
        = ((((Backend.guarded c.target).unit c.resolver e).runOn w.backend).1,
          ⟨(((Backend.guarded c.target).unit c.resolver e).runOn w.backend).2, stack, log⟩) ∧
      ∀ u, ((c.compile e).runOn w).1 = .ok u → stack = [] := by
  obtain ⟨log, hopening⟩ := c.opening_runOn w
  have hoperations : (Backend.guarded c.target).operations c.resolver = c.operations := rfl
  rw [Target.unit, hoperations, compile, Step.runOn_bind, hopening, Step.runOn_bind]
  cases hopened : (Backend.guarded c.target).opening.runOn w.backend with
  | mk outcome b =>
    cases outcome with
    | error f => exact ⟨[], log, rfl, nofun⟩
    | ok =>
      obtain ⟨rest, log', hemit⟩ := emit_pushes hc e ⟨b, [], log⟩
      rw [Step.runOn_map] at hemit
      simp only [Step.runOn_bind, hemit]
      cases (c.operations.tree e).runOn b with
      | mk outcome b' =>
        cases outcome with
        | error f => exact ⟨rest ++ [], log ++ log', rfl, nofun⟩
        | ok v =>
          obtain ⟨log'', hclosing⟩ := c.closing_runOn v b' (log ++ log')
          exact ⟨[], log'', hclosing, fun _ _ => rfl⟩

end Compiler

end ArithCompiler

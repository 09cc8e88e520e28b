import Mathlib.Algebra.Order.Ring.Int
import ArithCompiler.Proofs.Compiler.Refusal
import ArithCompiler.Proofs.Recording.Replay

set_option autoImplicit false

/-!
# A stack out of balance

A compiler that leaves a value too many on the stack, or takes one too many away, changes the height
of the stack by a number that depends on the leaves and the operators of the tree only. A defect
always errs in the same direction, so nothing makes up for it, although operators and calls go on
with what they find: either the stack runs out on the way, or the check before the return finds a
height other than one.
-/

namespace ArithCompiler

open Recording (opened)
open Resolver (Resolves)

/-! ## Surplus -/

namespace Visit

def isLeaf : Visit → Bool
  | number _ | name _ => true
  | binary _ | enter _ | call _ _ => false

def isOperator : Visit → Bool
  | binary _ => true
  | number _ | name _ | enter _ | call _ _ => false

end Visit

namespace Tree

def leaves (e : Expr) : Nat := e.visits.countP Visit.isLeaf

def operators (e : Expr) : Nat := e.visits.countP Visit.isOperator

end Tree

namespace Imbalance

/-- So many values more than it should does a leaf leave. -/
def atLeaf : Imbalance → Int
  | extraConstant _ => 1
  | mutedLeaves => -1
  | balanced | extraPop => 0

def atOperator : Imbalance → Int
  | extraPop => -1
  | balanced | extraConstant _ | mutedLeaves => 0

def atVisit (i : Imbalance) : Visit → Int
  | .number _ | .name _ => i.atLeaf
  | .binary _ => i.atOperator
  | .enter _ | .call _ _ => 0

def surplus (i : Imbalance) (vs : List Visit) : Int := (vs.map i.atVisit).sum

def Gains (i : Imbalance) : Prop := 0 ≤ i.atLeaf ∧ 0 ≤ i.atOperator

theorem surplus_append (i : Imbalance) (vs ws : List Visit) :
    i.surplus (vs ++ ws) = i.surplus vs + i.surplus ws := by
  rw [surplus, List.map_append, List.sum_append]
  rfl

theorem surplus_cons (i : Imbalance) (v : Visit) (vs : List Visit) :
    i.surplus (v :: vs) = i.atVisit v + i.surplus vs := by
  rw [surplus, List.map_cons, List.sum_cons]
  rfl

theorem surplus_singleton (i : Imbalance) (v : Visit) : i.surplus [v] = i.atVisit v :=
  (i.surplus_cons v []).trans (Int.add_zero _)

theorem surplus_eq (i : Imbalance) (vs : List Visit) :
    i.surplus vs =
      i.atLeaf * vs.countP Visit.isLeaf + i.atOperator * vs.countP Visit.isOperator := by
  induction vs with
  | nil => simp [surplus]
  | cons v vs ih =>
    rw [surplus_cons, ih, List.countP_cons, List.countP_cons, Int.natCast_add, Int.natCast_add,
      Int.mul_add, Int.mul_add]
    cases v <;> simp [atVisit, Visit.isLeaf, Visit.isOperator] <;> omega

/-- A defect of leaves needs a leaf, and one of operators an operator. -/
theorem atVisit_eq_zero {i : Imbalance} {e : Expr} (hleaf : i.atLeaf = 0 ∨ e.leaves = 0)
    (hop : i.atOperator = 0 ∨ e.operators = 0) : ∀ v ∈ e.visits, i.atVisit v = 0 := by
  intro v hv
  cases v with
  | number | name =>
    exact hleaf.resolve_right fun h => List.countP_eq_zero.1 h _ hv rfl
  | binary =>
    exact hop.resolve_right fun h => List.countP_eq_zero.1 h _ hv rfl
  | enter | call => rfl

theorem Gains.surplus_nonneg {i : Imbalance} (h : i.Gains) (vs : List Visit) :
    0 ≤ i.surplus vs := by
  rw [surplus_eq]
  exact Int.add_nonneg (Int.mul_nonneg h.1 (Int.natCast_nonneg _))
    (Int.mul_nonneg h.2 (Int.natCast_nonneg _))

end Imbalance

namespace Emit

variable {σ ν : Type}

theorem pop_runOn (w : Work σ ν) :
    (pop : Emit σ ν ν).runOn w = match w.stack with
      | v :: stack => (.ok v, { w with stack })
      | [] => (.error (.residual 0), w) := by
  obtain ⟨b, stack, log⟩ := w
  cases stack <;> rfl

theorem popMany_runOn (n : Nat) (w : Work σ ν) :
    (popMany n : Emit σ ν (List ν)).runOn w
      = if w.stack.length < n then (.error (.residual w.stack.length), w)
        else (.ok (w.stack.take n).reverse, { w with stack := w.stack.drop n }) := by
  rw [popMany, Step.runOn_bind, Step.runOn_get]
  by_cases h : w.stack.length < n
  · simp [h]
  · simp only [h, if_false]
    rfl

/-- A value that is taken away right after it was made was there. -/
theorem push_pop (step : Step (Backend σ) ν) :
    (do push step; let _ ← pop; return () : Emit σ ν Unit)
      = (do let _ ← perform step; return ()) := by
  apply Step.ext
  intro w
  simp only [push, perform, Step.runOn_bind, Step.runOn_within, Step.runOn_modify, pop_runOn]
  cases step.runOn w.backend with
  | mk outcome b => cases outcome <;> rfl

end Emit

/-! ## Heights -/

namespace Recording

structure Open (b : Backend Recording) : Prop where
  phase : b.phase = .body
  ret : ∀ v, .ret v ∉ b.state.log
  finalize : .finalize ∉ b.state.log

def Gives (step : Step (Backend Recording) Handle) : Prop :=
  ∀ b, Open b → ∃ v b', step.runOn b = (.ok v, b') ∧ Open b'

/-- In an open unit the code makes the stack higher by `d`, or it stops for want of values; one that
    only gains values stops only where the stack holds fewer than `need`. The unit stays open. -/
def Shifts (i : Imbalance) (need : Nat) (d : Int) (code : Emit Recording Handle Unit) : Prop :=
  ∀ w, Open w.backend → ∃ outcome w', code.runOn w = (outcome, w') ∧ Open w'.backend ∧
    match outcome with
    | .ok _ => (w'.stack.length : Int) = w.stack.length + d
    | .error f => (i.Gains → w.stack.length < need) ∧ ∃ n, f = .residual n

theorem gives_of_emit (action : Action) {event : Handle → Event} (hret : ∀ d v, event d ≠ .ret v)
    (hfinalize : ∀ d, event d ≠ .finalize) :
    Gives (do Backend.require action .body; Backend.hook (emit event)) := by
  intro b hb
  let dest := Handle.register b.state.count
  refine ⟨dest, { b with state := ⟨b.state.log ++ [event dest], b.state.count + 1⟩ }, ?_, hb.phase,
    fun v hv => ?_, fun hf => ?_⟩
  · rw [Step.runOn_bind, Backend.require_runOn, if_pos hb.phase]
    rfl
  · rcases List.mem_append.1 hv with hv | hv
    · exact hb.ret v hv
    · exact hret dest v (List.mem_singleton.1 hv).symm
  · rcases List.mem_append.1 hf with hf | hf
    · exact hb.finalize hf
    · exact hfinalize dest (List.mem_singleton.1 hf).symm

theorem const_gives (v : Float) : Gives (Backend.const target v) :=
  gives_of_emit _ (fun _ _ => nofun) fun _ => nofun

theorem binary_gives (op : Operator) (a b : Handle) : Gives (Backend.binary target op a b) :=
  gives_of_emit _ (fun _ _ => nofun) fun _ => nofun

theorem call_gives (f : String) (args : List Handle) : Gives (Backend.call target f args) :=
  gives_of_emit _ (fun _ _ => nofun) fun _ => nofun

theorem ident_gives {r : Resolver} {x : String} (h : (r.constant? x).isSome) :
    Gives (r.ident target x) := by
  cases r with
  | missing | refusing => cases h
  | scope s =>
    obtain ⟨v, hv⟩ := Option.isSome_iff_exists.1 h
    change s.constants.get? x = some v at hv
    simp only [Resolver.ident, hv]
    exact const_gives v

theorem resolved_call_gives {r : Resolver} {f : String} {args : List Handle}
    (h : r.allow f args.length = .ok ()) : Gives (r.call target f args) := by
  cases r with
  | missing | refusing => cases h
  | scope s =>
    change s.admit? f args.length = .ok () at h
    simp only [Resolver.call, h]
    exact call_gives f args

namespace Shifts

variable {i : Imbalance} {m n : Nat} {d d' : Int} {code code' : Emit Recording Handle Unit}

theorem nothing : Shifts i m 0 (pure ()) :=
  fun w hw => ⟨.ok (), w, rfl, hw, (Int.add_zero _).symm⟩

theorem note (message : String) : Shifts i m 0 (Emit.note message) :=
  fun w hw => ⟨.ok (), { w with log := _ }, rfl, hw, (Int.add_zero _).symm⟩

theorem push {step : Step (Backend Recording) Handle} (h : Gives step) :
    Shifts i m 1 (Emit.push step) := by
  intro w hw
  obtain ⟨v, b, hrun, hb⟩ := h w.backend hw
  refine ⟨.ok (), ⟨b, v :: w.stack, w.log⟩, ?_, hb, Int.natCast_succ _⟩
  simp [Emit.push, Emit.perform, Step.runOn_bind, hrun]

theorem perform {step : Step (Backend Recording) Handle} (h : Gives step) :
    Shifts i m 0 (do let _ ← Emit.perform step; return ()) := by
  intro w hw
  obtain ⟨v, b, hrun, hb⟩ := h w.backend hw
  refine ⟨.ok (), ⟨b, w.stack, w.log⟩, ?_, hb, (Int.add_zero _).symm⟩
  simp [Emit.perform, Step.runOn_map, hrun]
  rfl

theorem append (h : Shifts i m d code) (h' : Shifts i n d' code')
    (hn : i.Gains → (n : Int) ≤ m + d) : Shifts i m (d + d') (do code; code') := by
  intro w hw
  obtain ⟨outcome, w₁, hrun, hopen, houtcome⟩ := h w hw
  cases outcome with
  | error f => exact ⟨.error f, w₁, Step.runOn_bind_error hrun, hopen, houtcome⟩
  | ok _ =>
    obtain ⟨outcome', w₂, hrun', hopen', houtcome'⟩ := h' w₁ hopen
    refine ⟨outcome', w₂, (Step.runOn_bind_ok hrun).trans hrun', hopen', ?_⟩
    change (w₁.stack.length : Int) = w.stack.length + d at houtcome
    cases outcome' with
    | ok _ =>
      change (w₂.stack.length : Int) = w₁.stack.length + d' at houtcome'
      change (w₂.stack.length : Int) = w.stack.length + (d + d')
      omega
    | error f =>
      refine ⟨fun hgains => ?_, houtcome'.2⟩
      have hless := houtcome'.1 hgains
      have hleft := hn hgains
      omega

theorem cast (h : Shifts i m d code) (hd : d = d') : Shifts i m d' code := hd ▸ h

theorem pop_bind {next : Handle → Emit Recording Handle Unit} (h : ∀ v, Shifts i n d (next v)) :
    Shifts i (n + 1) (d - 1) (Emit.pop >>= next) := by
  intro w hw
  cases hstack : w.stack with
  | nil =>
    refine ⟨.error (.residual 0), w, ?_, hw, fun _ => Nat.succ_pos n, 0, rfl⟩
    apply Step.runOn_bind_error
    rw [Emit.pop_runOn, hstack]
  | cons v stack =>
    obtain ⟨outcome, w', hrun, hopen, houtcome⟩ := h v { w with stack := stack } hw
    refine ⟨outcome, w', ?_, hopen, ?_⟩
    · rw [← hrun]
      apply Step.runOn_bind_ok
      rw [Emit.pop_runOn, hstack]
    · cases outcome with
      | ok _ =>
        change (w'.stack.length : Int) = stack.length + d at houtcome
        change (w'.stack.length : Int) = (v :: stack).length + (d - 1)
        rw [List.length_cons]
        omega
      | error f => exact ⟨fun hgains => Nat.succ_lt_succ (houtcome.1 hgains), houtcome.2⟩

theorem popMany_bind {k : Nat} {next : List Handle → Emit Recording Handle Unit}
    (h : ∀ vs, vs.length = k → Shifts i n d (next vs)) :
    Shifts i (n + k) (d - k) (Emit.popMany k >>= next) := by
  intro w hw
  by_cases hless : w.stack.length < k
  · refine ⟨.error (.residual w.stack.length), w, ?_, hw, fun _ => by omega, _, rfl⟩
    apply Step.runOn_bind_error
    rw [Emit.popMany_runOn, if_pos hless]
  · have hlength : (w.stack.take k).reverse.length = k := by
      rw [List.length_reverse, List.length_take]
      omega
    have hrest : (w.stack.drop k).length = w.stack.length - k := List.length_drop
    obtain ⟨outcome, w', hrun, hopen, houtcome⟩ := h _ hlength { w with stack := w.stack.drop k } hw
    refine ⟨outcome, w', ?_, hopen, ?_⟩
    · rw [← hrun]
      apply Step.runOn_bind_ok
      rw [Emit.popMany_runOn, if_neg hless]
    · cases outcome with
      | ok _ =>
        change (w'.stack.length : Int) = (w.stack.drop k).length + d at houtcome
        change (w'.stack.length : Int) = w.stack.length + (d - k)
        omega
      | error f =>
        refine ⟨fun hgains => ?_, houtcome.2⟩
        have hfew : (w.stack.drop k).length < n := houtcome.1 hgains
        omega

end Shifts

end Recording

/-! ## The code for a tree -/

namespace Compiler

open Recording (Gives Open Shifts)

section Heights

variable {c : Compiler Recording Handle (List Event)} (ht : c.target = Recording.target)
include ht

theorem leaf_shifts {code : Emit Recording Handle Unit} (h : Shifts c.imbalance 0 1 code) :
    Shifts c.imbalance 0 (1 + c.imbalance.atLeaf) (c.leaf code) := by
  rw [leaf, ht]
  cases hi : c.imbalance with
  | balanced | extraPop =>
    rw [hi] at h
    exact h
  | extraConstant v =>
    rw [hi] at h
    exact h.append (n := 0) (.push (Recording.const_gives v)) fun _ => by omega
  | mutedLeaves => exact .nothing

theorem number_shifts (v : Float) :
    Shifts c.imbalance 0 (1 + c.imbalance.atLeaf) (c.number v) := by
  have hgives : Gives (Backend.const c.target v) := ht ▸ Recording.const_gives v
  exact leaf_shifts ht ((Shifts.note _).append (n := 0) (.push hgives) fun _ => by omega)

theorem name_shifts {x : String} (hx : (c.resolver.constant? x).isSome) :
    Shifts c.imbalance 0 (1 + c.imbalance.atLeaf) (c.name x) := by
  have hr : c.resolver ≠ .missing := by
    intro hr
    rw [hr] at hx
    cases hx
  have hgives : Gives (c.resolver.ident c.target x) := ht ▸ Recording.ident_gives hx
  refine leaf_shifts ht ?_
  rw [if_neg hr]
  exact (Shifts.note _).append (n := 0) (.push hgives) fun _ => by omega

theorem operator_shifts (op : Operator) :
    Shifts c.imbalance 2 (c.imbalance.atOperator - 1) (c.operator op) := by
  have hbinary (a b : Handle) : Gives (Backend.binary c.target op a b) :=
    ht ▸ Recording.binary_gives op a b
  have hmade (a b : Handle) : Shifts c.imbalance 0 (1 + c.imbalance.atOperator) (do
      Emit.push (Backend.binary c.target op a b)
      if c.imbalance = .extraPop then
        let _ ← Emit.pop) := by
    cases hi : c.imbalance with
    | extraPop =>
      have hdropped := Shifts.perform (i := .extraPop) (m := 0) (hbinary a b)
      rw [← Emit.push_pop] at hdropped
      exact hdropped
    | balanced | extraConstant _ | mutedLeaves =>
      exact (Shifts.push (hbinary a b)).append (n := 0) .nothing fun _ => by omega
  have hnoted (a b : Handle) :=
    (Shifts.note (i := c.imbalance) (m := 0) ("binary " ++ op.name)).append (hmade a b)
      fun _ => by omega
  exact (Shifts.pop_bind fun right => Shifts.pop_bind fun left => hnoted left right).cast (by omega)

theorem invocation_shifts {f : String} {count : Nat} (h : c.resolver.allow f count = .ok ()) :
    Shifts c.imbalance count (1 - count) (c.invocation f count) := by
  have hcall (vs : List Handle) (hvs : vs.length = count) :
      Gives (c.resolver.call c.target f vs) :=
    ht ▸ Recording.resolved_call_gives (hvs ▸ h)
  have hnoted (vs : List Handle) (hvs : vs.length = count) :=
    (Shifts.note (i := c.imbalance) (m := 0) ("call " ++ f ++ "/" ++ toString count)).append
      (n := 0) (.push (hcall vs hvs)) fun _ => by omega
  have htaken := Shifts.popMany_bind hnoted
  rw [Nat.zero_add] at htaken
  exact htaken.cast (by omega)

omit ht in
theorem emitAll_shifts {args : List Expr}
    (h : ∀ a ∈ args, Shifts c.imbalance 0 (1 + c.imbalance.surplus a.visits) (c.emit a)) :
    Shifts c.imbalance 0 (args.length + c.imbalance.surplus (Tree.visitsAll args))
      (c.emitAll args) := by
  induction args with
  | nil => exact .nothing
  | cons a args ih =>
    have hargs := ih fun b hb => h b (List.mem_cons_of_mem a hb)
    have hall := (h a List.mem_cons_self).append hargs fun hgains => by
      have := hgains.surplus_nonneg a.visits
      omega
    refine hall.cast ?_
    rw [Tree.visitsAll, Imbalance.surplus_append, List.length_cons]
    omega

/-- Whatever the mix of leaves, operators and calls, the code for a tree is out of balance by its
    surplus, if it gets to its end. -/
theorem emit_shifts {e : Expr} (h : Resolves c.resolver e) :
    Shifts c.imbalance 0 (1 + c.imbalance.surplus e.visits) (c.emit e) := by
  induction e using Tree.exprInduction with
  | number v =>
    rw [Tree.visits, Imbalance.surplus_singleton]
    exact number_shifts ht v
  | name x =>
    rw [Tree.visits, Imbalance.surplus_singleton]
    exact name_shifts ht (h.names x (List.mem_singleton.2 rfl))
  | binary op l r ihl ihr =>
    have hl := ihl (h.subtree (.left op (.refl l)))
    have hr := ihr (h.subtree (.right op (.refl r)))
    have hoperands : Shifts c.imbalance 0 _ (do c.emit l; c.emit r) :=
      hl.append hr fun hgains => by
        have := hgains.surplus_nonneg l.visits
        omega
    -- a defect that only adds values leaves the operator its two operands
    have hall := hoperands.append (operator_shifts ht op) fun hgains => by
      have := hgains.surplus_nonneg l.visits
      have := hgains.surplus_nonneg r.visits
      omega
    rw [bind_assoc] at hall
    refine hall.cast ?_
    rw [Tree.visits, Imbalance.surplus_append, Imbalance.surplus_append,
      Imbalance.surplus_singleton, Imbalance.atVisit]
    omega
  | call f args ih =>
    have hargs := emitAll_shifts fun a ha => ih a ha (h.subtree (.argument f ha (.refl a)))
    have hmem := Operations.AgreeOn.mem_calls f args
    have hall := hargs.append (invocation_shifts ht (h.calls _ hmem)) fun hgains => by
      have := hgains.surplus_nonneg (Tree.visitsAll args)
      omega
    have henter : c.requireResolver f = pure () :=
      Step.ext fun w => (requireResolver_runOn f w).trans (congrArg (·, w) (h.enter _ hmem))
    rw [emit, henter, pure_bind]
    refine hall.cast ?_
    rw [Tree.visits, Imbalance.surplus_cons, Imbalance.surplus_append, Imbalance.surplus_singleton,
      Imbalance.atVisit, Imbalance.atVisit]
    omega

end Heights

/-! ## Balance -/

section Balance

variable {σ ν υ : Type} {c : Compiler σ ν υ}

def mended (c : Compiler σ ν υ) : Compiler σ ν υ := { c with imbalance := .balanced }

theorem leaf_eq (h : c.imbalance.atLeaf = 0) (code : Emit σ ν Unit) : c.leaf code = code := by
  rw [leaf]
  cases hi : c.imbalance with
  | balanced | extraPop => rfl
  | extraConstant _ | mutedLeaves =>
    rw [hi] at h
    cases h

theorem operator_eq (h : c.imbalance.atOperator = 0) (op : Operator) :
    c.operator op = c.mended.operator op := by
  have hi : c.imbalance ≠ .extraPop := by
    intro hi
    rw [hi] at h
    cases h
  simp only [operator, hi, if_false]
  rfl

/-- A defect does not show in a tree that has none of the nodes where it is made. -/
theorem emit_eq {e : Expr} (h : ∀ v ∈ e.visits, c.imbalance.atVisit v = 0) :
    c.emit e = c.mended.emit e := by
  induction e using Tree.exprInduction with
  | number v =>
    have hleaf : c.imbalance.atLeaf = 0 := h (.number v) (List.mem_singleton.2 rfl)
    rw [emit, emit, number, leaf_eq hleaf]
    rfl
  | name x =>
    have hleaf : c.imbalance.atLeaf = 0 := h (.name x) (List.mem_singleton.2 rfl)
    rw [emit, emit, name, leaf_eq hleaf]
    rfl
  | binary op l r ihl ihr =>
    have hop : c.imbalance.atOperator = 0 := h (.binary op) (by simp [Tree.visits])
    have hl := ihl fun v hv => h v (by simp [Tree.visits, hv])
    have hr := ihr fun v hv => h v (by simp [Tree.visits, hv])
    rw [emit, emit, hl, hr, operator_eq hop]
  | call f args ih =>
    have hargs : c.emitAll args = c.mended.emitAll args := by
      have hall : ∀ v ∈ Tree.visitsAll args, c.imbalance.atVisit v = 0 :=
        fun v hv => h v (by simp [Tree.visits, hv])
      clear h
      induction args with
      | nil => rfl
      | cons a args iha =>
        have ha := ih a List.mem_cons_self fun v hv => hall v (List.mem_append_left _ hv)
        have hrest := iha (fun b hb => ih b (List.mem_cons_of_mem a hb))
          fun v hv => hall v (List.mem_append_right _ hv)
        rw [emitAll, emitAll, ha, hrest]
    rw [emit, emit, hargs]
    rfl

theorem compile_eq {e : Expr} (h : ∀ v ∈ e.visits, c.imbalance.atVisit v = 0) :
    c.compile e = c.mended.compile e := by
  rw [compile, compile, emit_eq h]
  rfl

theorem closing_residual {w : Work σ ν} (h : w.stack.length ≠ 1) :
    c.closing.runOn w = (.error (.residual w.stack.length), w) := by
  rw [closing, Step.runOn_bind, Step.runOn_get]
  simp [h]

end Balance

theorem compile_residual {c : Compiler Recording Handle (List Event)}
    (ht : c.target = Recording.target) {e : Expr} (h : Resolves c.resolver e)
    (hi : c.imbalance.surplus e.visits ≠ 0) :
    ∃ n w, (c.compile e).runOn (.fresh .empty) = (.error (.residual n), w) ∧ Open w.backend ∧
      (c.imbalance.Gains → (n : Int) = 1 + c.imbalance.surplus e.visits) := by
  obtain ⟨log, hopening⟩ : ∃ log, c.opening.runOn (.fresh .empty)
      = (.ok (), ⟨⟨.body, entryPoint, ⟨opened, 0⟩⟩, [], log⟩) := by
    rw [opening, ht]
    exact ⟨_, rfl⟩
  have hopened : Open ⟨.body, entryPoint, ⟨opened, 0⟩⟩ :=
    ⟨rfl, fun v => by simp [opened], by simp [opened]⟩
  obtain ⟨outcome, w, hemit, hopen, houtcome⟩ := emit_shifts ht h ⟨_, [], log⟩ hopened
  rw [compile, Step.runOn_bind_ok hopening]
  cases outcome with
  | error f =>
    obtain ⟨hmissing, n, rfl⟩ := houtcome
    exact ⟨n, w, Step.runOn_bind_error hemit, hopen,
      fun hgains => absurd (hmissing hgains) (Nat.not_lt_zero _)⟩
  | ok _ =>
    have hheight : (w.stack.length : Int) = 0 + (1 + c.imbalance.surplus e.visits) := houtcome
    -- the code came to its end, so what is left over meets the check before the return
    have hlength : w.stack.length ≠ 1 := by omega
    exact ⟨w.stack.length, w, (Step.runOn_bind_ok hemit).trans (closing_residual hlength), hopen,
      fun _ => by omega⟩

end Compiler

/-! ## Runs -/

/-- The check of the stack has stopped the run where so many values were found, and nothing has been
    returned or finished. -/
structure Run.Residual (run : Run) (n : Nat) : Prop where
  outcome : run.outcome = .error (.residual n)
  phase : run.phase = .body
  ret : ∀ v, .ret v ∉ run.recorded
  finalize : .finalize ∉ run.recorded

namespace Engine

variable {r : Resolver} {e : Expr}

theorem recording_mended {i : Imbalance} (h : ∀ v ∈ e.visits, i.atVisit v = 0) :
    recording.compile r i e = recording.compile r .balanced e := by
  have hcode := Compiler.compile_eq (c := recording.compiler r i) h
  rw [compile, hcode]
  rfl

theorem recording_residual {i : Imbalance} (h : Resolves r e) (hi : i.surplus e.visits ≠ 0) :
    ∃ n, (recording.compile r i e).Residual n ∧
      (i.Gains → (n : Int) = 1 + i.surplus e.visits) := by
  obtain ⟨n, w, hrun, hopen, hn⟩ := Compiler.compile_residual (c := recording.compiler r i) rfl h hi
  refine ⟨n, ?_, hn⟩
  rw [show recording.compile r i e = recording.runOf _ from congrArg recording.runOf hrun]
  exact ⟨rfl, hopen.phase, hopen.ret, hopen.finalize⟩

/-- The check before the return finds every defect that shows. A constant too many for each leaf is
    counted by it; where operators drop a value or leaves push none, the stack may run out before,
    which is found on the way. Nothing else goes wrong, and nothing is returned or finished. -/
theorem recording_residual_iff (h : Resolves r e) :
    let run (i : Imbalance) := recording.compile r i e
    (∃ log, (run .balanced).outcome = .ok (.events log)) ∧
      (∀ v, (e.leaves = 0 → run (.extraConstant v) = run .balanced) ∧
        (e.leaves ≠ 0 → (run (.extraConstant v)).Residual (1 + e.leaves))) ∧
      (e.operators = 0 → run .extraPop = run .balanced) ∧
      (e.operators ≠ 0 → ∃ n, (run .extraPop).Residual n) ∧
      (e.leaves = 0 → run .mutedLeaves = run .balanced) ∧
      (e.leaves ≠ 0 → ∃ n, (run .mutedLeaves).Residual n) := by
  intro run
  refine ⟨⟨_, recording_outcome h⟩, fun v => ⟨fun h0 => ?_, fun h0 => ?_⟩,
    fun h0 => ?_, fun h0 => ?_, fun h0 => ?_, fun h0 => ?_⟩
  · exact recording_mended (Imbalance.atVisit_eq_zero (.inr h0) (.inl rfl))
  · have hsurplus : _ = 1 * (e.leaves : Int) + 0 * e.operators :=
      (Imbalance.extraConstant v).surplus_eq e.visits
    obtain ⟨n, hrun, hn⟩ := recording_residual (i := .extraConstant v) h (by omega)
    have hcount : n = 1 + e.leaves := by
      have := hn ⟨Int.one_nonneg, Int.le_refl 0⟩
      omega
    exact hcount ▸ hrun
  · exact recording_mended (Imbalance.atVisit_eq_zero (.inl rfl) (.inr h0))
  · have hsurplus : _ = 0 * (e.leaves : Int) + -1 * e.operators :=
      Imbalance.extraPop.surplus_eq e.visits
    obtain ⟨n, hrun, -⟩ := recording_residual (i := .extraPop) h (by omega)
    exact ⟨n, hrun⟩
  · exact recording_mended (Imbalance.atVisit_eq_zero (.inr h0) (.inl rfl))
  · have hsurplus : _ = -1 * (e.leaves : Int) + 0 * e.operators :=
      Imbalance.mutedLeaves.surplus_eq e.visits
    obtain ⟨n, hrun, -⟩ := recording_residual (i := .mutedLeaves) h (by omega)
    exact ⟨n, hrun⟩

/-- A call of two arguments beside one that has none. -/
theorem recording_residual_iff_calls :
    let e : Expr := .binary .add (.call "f" [.name "x", .number 2.0]) (.call "g" [])
    let r : Resolver := .scope ⟨[("x", 1.0)], [("f", 2), ("g", 0)]⟩
    (recording.compile r (.extraConstant 7.0) e).Residual 3 ∧
      (∃ n, (recording.compile r .extraPop e).Residual n) ∧
      ∃ n, (recording.compile r .mutedLeaves e).Residual n := by
  intro e r
  have h : Resolves r e := by
    refine Resolver.resolves_scope_iff.2 ⟨fun x hx => ?_, fun q hq => ?_⟩
    · obtain rfl : x = "x" := List.mem_singleton.1 hx
      rfl
    · have hcalls : q ∈ [("f", 2), ("g", 0)] := hq
      have hcall : q = ("f", 2) ∨ q = ("g", 0) := by simpa using hcalls
      rcases hcall with rfl | rfl <;> rfl
  have hleaves : e.leaves = 2 := rfl
  have hoperators : e.operators = 1 := rfl
  obtain ⟨-, hconstant, -, hpop, -, hmuted⟩ := recording_residual_iff h
  exact ⟨(hconstant 7.0).2 (by omega), hpop (by omega), hmuted (by omega)⟩

end Engine

end ArithCompiler

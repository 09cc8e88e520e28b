import ArithCompiler.Proofs.Compiler.Resolution

set_option autoImplicit false

/-!
# The first refusal

Compiling goes through the visits of a tree in order: a leaf is visited once, an operator after its
operands, and a call before its arguments and after them. The visits before the first one that the
resolver refuses have given their lines; then the compilation stops.
-/

namespace ArithCompiler

open Resolver (Resolves)

inductive Visit where
  | number (value : Float)
  | name (text : String)
  | binary (op : Operator)
  /-- A call, before its arguments. -/
  | enter (function : String)
  /-- A call, after so many arguments. -/
  | call (function : String) (count : Nat)
  deriving DecidableEq

namespace Visit

def completes : Visit → Bool
  | enter _ => false
  | number _ | name _ | binary _ | call _ _ => true

def resolved (value : String → Float) : Visit → Visit
  | name x => number (value x)
  | v => v

end Visit

def Line.visit : Line → Visit
  | const v => .number v
  | binary op _ _ => .binary op
  | call f is => .call f is.length

namespace Tree

mutual
def visits : Expr → List Visit
  | number v => [.number v]
  | name x => [.name x]
  | binary op l r => visits l ++ (visits r ++ [.binary op])
  | call f args => .enter f :: (visitsAll args ++ [.call f args.length])
  | foreign x => nomatch x

def visitsAll : List Expr → List Visit
  | [] => []
  | e :: es => visits e ++ visitsAll es
end

theorem linesAll_visits_of {value : String → Float} {es : List Expr}
    (h : ∀ e ∈ es, ∀ start, (lines value start e).map Line.visit
      = (e.visits.filter Visit.completes).map (Visit.resolved value)) (start : Nat) :
    (linesAll value start es).map Line.visit
      = ((visitsAll es).filter Visit.completes).map (Visit.resolved value) := by
  induction es generalizing start with
  | nil => rfl
  | cons e es ih =>
    rw [linesAll, visitsAll, List.map_append, List.filter_append, List.map_append,
      h e List.mem_cons_self, ih fun a ha => h a (List.mem_cons_of_mem _ ha)]

theorem lines_visits (value : String → Float) (start : Nat) (e : Expr) :
    (lines value start e).map Line.visit
      = (e.visits.filter Visit.completes).map (Visit.resolved value) := by
  induction e using exprInduction generalizing start with
  | number v => rfl
  | name x => rfl
  | binary op l r ihl ihr =>
    simp only [lines, visits, List.map_append, List.filter_append, ihl, ihr]
    rfl
  | call f args ih =>
    rw [lines, visits, List.map_append, linesAll_visits_of ih,
      List.filter_cons_of_neg Bool.false_ne_true, List.filter_append, List.map_append]
    change _ ++ [Visit.call f (roots start args).length] = _
    rw [roots_length]
    rfl

theorem linesAll_visits (value : String → Float) (start : Nat) (es : List Expr) :
    (linesAll value start es).map Line.visit
      = ((visitsAll es).filter Visit.completes).map (Visit.resolved value) :=
  linesAll_visits_of (fun e _ start => lines_visits value start e) start

theorem lines_length_visits (value : String → Float) (start : Nat) (e : Expr) :
    (lines value start e).length = e.visits.countP Visit.completes := by
  rw [List.countP_eq_length_filter, ← List.length_map (Visit.resolved value),
    ← lines_visits value start, List.length_map]

theorem linesAll_length_visits (value : String → Float) (start : Nat) (es : List Expr) :
    (linesAll value start es).length = (visitsAll es).countP Visit.completes := by
  rw [List.countP_eq_length_filter, ← List.length_map (Visit.resolved value),
    ← linesAll_visits value start, List.length_map]

theorem visitsAll_eq_flatMap (es : List Expr) : visitsAll es = es.flatMap visits := by
  induction es with
  | nil => rfl
  | cons e es ih => rw [visitsAll, ih, List.flatMap_cons]

end Tree

namespace Resolver

/-- The fault with which a visit is refused. Without a resolver a call is refused before its
    arguments, with one it is refused after them. -/
def refusal : Resolver → Visit → Option Fault
  | missing, .name x => some (.unbound x)
  | refusing, .name x => some (.unbound x)
  | scope s, .name x =>
    match s.constants.get? x with
    | some _ => none
    | none => some (.unbound x)
  | missing, .enter f => some (.unsupported (.callWithoutResolver f))
  | refusing, .call f _ => some (.unsupported (.refusedCall f))
  | scope s, .call f count =>
    match s.functions.get? f with
    | none => some (.unsupported (.unknownFunction f))
    | some arity =>
      if (count : Int) = arity then none else some (.unsupported (.wrongArity f arity count))
  | _, _ => none

variable {r : Resolver}

def Passes (r : Resolver) (vs : List Visit) : Prop := ∀ v ∈ vs, r.refusal v = none

/-- A visit is refused with the fault, none is refused before it, and so many nodes are done by
    then. -/
def Stops (r : Resolver) (vs : List Visit) (done : Nat) (f : Fault) : Prop :=
  ∃ before v after, vs = before ++ v :: after ∧ Passes r before ∧ r.refusal v = some f ∧
    before.countP Visit.completes = done

theorem passes_or_stops (r : Resolver) (vs : List Visit) :
    Passes r vs ∨ ∃ done f, Stops r vs done f := by
  induction vs with
  | nil => exact .inl nofun
  | cons v vs ih =>
    cases hv : r.refusal v with
    | some f => exact .inr ⟨0, f, [], v, vs, rfl, nofun, hv, rfl⟩
    | none =>
      rcases ih with h | ⟨done, f, before, u, after, rfl, hbefore, hu, rfl⟩
      · exact .inl (List.forall_mem_cons.2 ⟨hv, h⟩)
      · exact .inr ⟨_, f, v :: before, u, after, rfl, List.forall_mem_cons.2 ⟨hv, hbefore⟩, hu, rfl⟩

theorem Passes.append {vs ws : List Visit} (h : Passes r (vs ++ ws)) : Passes r vs ∧ Passes r ws :=
  List.forall_mem_append.1 h

theorem Stops.not_passes {vs : List Visit} {done : Nat} {f : Fault} (h : Stops r vs done f) :
    ¬ Passes r vs := by
  obtain ⟨before, v, after, rfl, -, hv, -⟩ := h
  intro hpasses
  have := hpasses v (List.mem_append_right _ List.mem_cons_self)
  rw [hv] at this
  cases this

theorem Stops.done_le {vs : List Visit} {done : Nat} {f : Fault} (h : Stops r vs done f) :
    done ≤ vs.countP Visit.completes := by
  obtain ⟨before, v, after, rfl, -, -, rfl⟩ := h
  rw [List.countP_append]
  exact Nat.le_add_right _ _

theorem Stops.singleton {v : Visit} {done : Nat} {f : Fault} (h : Stops r [v] done f) :
    r.refusal v = some f ∧ done = 0 := by
  obtain ⟨before, u, after, hvs, -, hu, rfl⟩ := h
  cases before with
  | nil =>
    cases hvs
    exact ⟨hu, rfl⟩
  | cons _ before => cases before <;> cases hvs

/-- Visits stop in their first part, or pass it and stop in the second. -/
theorem Stops.append {vs ws : List Visit} {done : Nat} {f : Fault} (h : Stops r (vs ++ ws) done f) :
    Stops r vs done f ∨ Passes r vs ∧
      ∃ more, Stops r ws more f ∧ done = vs.countP Visit.completes + more := by
  obtain ⟨before, v, after, heq, hbefore, hv, rfl⟩ := h
  rcases List.append_eq_append_iff.1 heq with ⟨part, rfl, rfl⟩ | ⟨part, rfl, hpart⟩
  · obtain ⟨hvs, hpart⟩ := hbefore.append
    exact .inr ⟨hvs, _, ⟨part, v, after, rfl, hpart, hv, rfl⟩, List.countP_append⟩
  · cases part with
    | nil =>
      rw [List.append_nil]
      exact .inr ⟨hbefore, 0, ⟨[], v, after, hpart.symm, nofun, hv, rfl⟩, rfl⟩
    | cons u part =>
      obtain ⟨rfl, -⟩ := List.cons.inj hpart
      exact .inl ⟨before, v, part, rfl, hbefore, hv, rfl⟩

/-- Of lines that were given by visits, and of more, only those count that the visits gave before
    they stopped. -/
theorem Stops.take_append {vs : List Visit} {done : Nat} {f : Fault} (h : Stops r vs done f)
    {ls : List Line} (hls : ls.length = vs.countP Visit.completes) (ls' : List Line) :
    (ls ++ ls').take done = ls.take done :=
  List.take_append_of_le_length (hls ▸ h.done_le)

/-! ## What is refused -/

theorem refusal_number (r : Resolver) (v : Float) : r.refusal (.number v) = none := by
  cases r <;> rfl

theorem refusal_binary (r : Resolver) (op : Operator) : r.refusal (.binary op) = none := by
  cases r <;> rfl

theorem refusal_name (r : Resolver) (x : String) :
    r.refusal (.name x) = if (r.constant? x).isSome then none else some (.unbound x) := by
  cases r with
  | missing | refusing => rfl
  | scope s =>
    cases h : s.constants.get? x <;> simp [refusal, constant?, h]

theorem enter_eq (r : Resolver) (f : String) :
    r.enter f = match r.refusal (.enter f) with
      | some fault => .error fault
      | none => .ok () := by
  cases r <;> rfl

theorem allow_eq {f : String} (henter : r.refusal (.enter f) = none) (count : Nat) :
    r.allow f count = match r.refusal (.call f count) with
      | some fault => .error fault
      | none => .ok () := by
  cases r with
  | missing => cases henter
  | refusing => rfl
  | scope s =>
    simp only [allow, Scope.admit?, refusal]
    cases s.functions.get? f with
    | none => rfl
    | some arity =>
      simp only
      split <;> rfl

theorem resolves_of_passes {e : Expr} (h : Passes r e.visits) : Resolves r e := by
  induction e using Tree.exprInduction with
  | number v => exact ⟨nofun, nofun, nofun⟩
  | name x =>
    refine ⟨fun y hy => ?_, nofun, nofun⟩
    obtain rfl := List.mem_singleton.1 hy
    have hx := h (.name y) (List.mem_singleton.2 rfl)
    rw [refusal_name] at hx
    split at hx
    · assumption
    · cases hx
  | binary op left right ihl ihr =>
    obtain ⟨hl, hrest⟩ := Passes.append h
    exact (ihl hl).binary (ihr hrest.append.1)
  | call f args ih =>
    obtain ⟨henter, hrest⟩ := List.forall_mem_cons.1 h
    obtain ⟨hargs, hcall⟩ := Passes.append hrest
    have hcall := hcall _ (List.mem_singleton.2 rfl)
    refine .call ?_ (fun a ha => ih a ha fun v hv => hargs v ?_) ?_
    · rw [enter_eq, henter]
    · rw [Tree.visitsAll_eq_flatMap]
      exact List.mem_flatMap.2 ⟨a, ha, hv⟩
    · rw [allow_eq henter, hcall]

end Resolver

open Resolver (Passes Stops)

/-! ## Where compiling stops -/

namespace Target

variable {σ ν υ α β : Type} [Inhabited ν] (t : Target σ ν υ) (r : Resolver)

def halted (ls : List Line) (hs : List ν) (f : Fault) : Step σ α := do
  let _ ← (t.plain r.value).play ls hs
  throw f

theorem throw_bind (f : Fault) (k : α → Step σ β) : (throw f : Step σ α) >>= k = throw f :=
  Step.ext fun s => Step.runOn_bind_error (Step.runOn_throw f s)

theorem halted_bind (ls : List Line) (hs : List ν) (f : Fault) (k : α → Step σ β) :
    (t.halted r ls hs f : Step σ α) >>= k = t.halted r ls hs f := by
  rw [halted, bind_assoc]
  exact bind_congr fun _ => throw_bind f k

theorem play_halted (ls ls' : List Line) (hs : List ν) (f : Fault) :
    ((t.plain r.value).play ls hs >>= fun hs' => t.halted r ls' hs' f : Step σ α)
      = t.halted r (ls ++ ls') hs f := by
  rw [halted, Operations.play_append, bind_assoc]
  rfl

theorem halted_nil (hs : List ν) (f : Fault) : (t.halted r [] hs f : Step σ α) = throw f :=
  pure_bind _ _

variable {t r} {e : Expr} {es : List Expr} {done : Nat} {f : Fault}

theorem played_bind_halted {x : Step σ α} {ls ls' : List Line} {hs : List ν} {g : List ν → α}
    {k : α → Step σ β} (hx : x = g <$> (t.plain r.value).play ls hs)
    (hk : ∀ hs', hs'.length = hs.length + ls.length → k (g hs') = t.halted r ls' hs' f) :
    x >>= k = t.halted r (ls ++ ls') hs f := by
  rw [hx, bind_map_left, ← play_halted]
  refine ((t.plain r.value).play_extends ls hs).bind_eq ?_
  rintro hs' ⟨new, hnew, rfl⟩
  refine hk _ ?_
  rw [List.length_append, hnew]

theorem tree_played (h : Passes r e.visits) (hs : List ν) :
    (t.operations r).tree e = (pick · (hs.length + e.inner))
      <$> (t.plain r.value).play (e.lines r.value hs.length) hs := by
  rw [operations_tree t (Resolver.resolves_of_passes h),
    Operations.tree_eq_play (t.plain_plain r.value) e hs]

theorem trees_played (h : Passes r (Tree.visitsAll es)) (hs : List ν) :
    (t.operations r).trees es = (fun hs' => (Tree.roots hs.length es).map (pick hs'))
      <$> (t.plain r.value).play (Tree.linesAll r.value hs.length es) hs := by
  have hsame : (t.operations r).trees es = (t.plain r.value).trees es := by
    induction es with
    | nil => rfl
    | cons e es ih =>
      obtain ⟨he, hes⟩ := Passes.append h
      rw [Operations.trees, Operations.trees,
        operations_tree t (Resolver.resolves_of_passes he), ih hes]
  rw [hsame, Operations.trees_eq_play fun e _ hs =>
    Operations.tree_eq_play (t.plain_plain r.value) e hs]

theorem trees_halted
    (hes : ∀ e ∈ es, ∀ done, Stops r e.visits done f → ∀ hs : List ν,
      (t.operations r).tree e = t.halted r ((e.lines r.value hs.length).take done) hs f)
    (h : Stops r (Tree.visitsAll es) done f) (hs : List ν) :
    (t.operations r).trees es
      = t.halted r ((Tree.linesAll r.value hs.length es).take done) hs f := by
  induction es generalizing done hs with
  | nil => exact absurd (fun v hv => nomatch hv) h.not_passes
  | cons e es ih =>
    have hlength := Tree.lines_length_visits r.value hs.length e
    rw [Operations.trees, Tree.linesAll]
    rcases h.append with he | ⟨he, more, hrest, rfl⟩
    · rw [hes e List.mem_cons_self done he hs, halted_bind, he.take_append hlength]
    · rw [← hlength, List.take_length_add_append]
      refine played_bind_halted (tree_played he hs) fun hs' hhs' => ?_
      rw [ih (fun a ha => hes a (List.mem_cons_of_mem _ ha)) hrest hs', halted_bind, hhs',
        Tree.lines_length]

/-- A compilation that is refused has gone through the lines of the nodes that were done by then. -/
theorem tree_halted (h : Stops r e.visits done f) (hs : List ν) :
    (t.operations r).tree e = t.halted r ((e.lines r.value hs.length).take done) hs f := by
  induction e using Tree.exprInduction generalizing done hs with
  | number v =>
    obtain ⟨hv, -⟩ := h.singleton
    rw [Resolver.refusal_number] at hv
    cases hv
  | name x =>
    obtain ⟨hx, rfl⟩ := h.singleton
    rw [Resolver.refusal_name] at hx
    rw [List.take_zero, halted_nil, Operations.tree, operations]
    cases hconstant : r.constant? x with
    | some v =>
      rw [hconstant] at hx
      cases hx
    | none =>
      rw [hconstant] at hx
      cases hx
      simp only [hconstant]
  | binary op left right ihl ihr =>
    have hlength := Tree.lines_length_visits r.value hs.length left
    rw [Operations.tree, Tree.lines]
    rcases h.append with hl | ⟨hl, more, hrest, rfl⟩
    · rw [ihl hl hs, halted_bind, hl.take_append hlength]
    · rw [← hlength, List.take_length_add_append]
      refine played_bind_halted (tree_played hl hs) fun hs' hhs' => ?_
      rw [← Tree.lines_length r.value hs.length left, ← hhs']
      rcases hrest.append with hr | ⟨_, _, hop, _⟩
      · rw [ihr hr hs', halted_bind,
          hr.take_append (Tree.lines_length_visits r.value hs'.length right)]
      · obtain ⟨hop, -⟩ := hop.singleton
        rw [Resolver.refusal_binary] at hop
        cases hop
  | call g args ih =>
    have henter : (t.operations r).enter g = liftM (r.enter g) := rfl
    have hvisits : Stops r ([.enter g] ++ (Tree.visitsAll args ++ [.call g args.length])) done f := h
    rw [Operations.tree, henter, Resolver.enter_eq, Tree.lines]
    rcases hvisits.append with hg | ⟨hg, more, hrest, rfl⟩
    · obtain ⟨hrefused, rfl⟩ := hg.singleton
      rw [hrefused, List.take_zero, halted_nil]
      exact throw_bind f _
    · have hpassed := hg _ (List.mem_singleton.2 rfl)
      have hentered : (liftM (Except.ok () : Except Fault Unit) : Step σ Unit) = pure () := rfl
      have hcount : [Visit.enter g].countP Visit.completes + more = more := Nat.zero_add more
      have hlength := Tree.linesAll_length_visits r.value hs.length args
      rw [hpassed, hentered, pure_bind, hcount]
      rcases hrest.append with hargs | ⟨hargs, last, hcall, rfl⟩
      · rw [trees_halted (fun a ha done h hs => ih a ha h hs) hargs hs, halted_bind,
          hargs.take_append hlength]
      · obtain ⟨hrefused, rfl⟩ := hcall.singleton
        rw [← hlength, List.take_length_add_append]
        refine played_bind_halted (trees_played hargs hs) fun hs' _ => ?_
        have hcount : ((Tree.roots hs.length args).map (pick hs')).length = args.length := by
          rw [List.length_map, Tree.roots_length]
        simp only [operations]
        rw [List.take_zero, halted_nil, hcount, Resolver.allow_eq hpassed, hrefused]
        exact throw_bind f _

end Target

end ArithCompiler

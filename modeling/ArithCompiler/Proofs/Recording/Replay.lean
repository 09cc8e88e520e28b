import ArithCompiler.Proofs.Bytecode.Code
import ArithCompiler.Proofs.Engine.Runs

set_option autoImplicit false

/-!
# The log of a tree

The recording of a tree is its lines, each giving out the register of its place, between the opening
and the closing of the unit. A log can be replayed: whatever is done at its events, replaying the log
of a tree is going through the tree.
-/

namespace ArithCompiler

open Bytecode (handles handles_length handles_succ pick_handles)
open Resolver (Resolves)

def Line.event (dest : Nat) : Line → Event
  | const v => .const v (.register dest)
  | binary op i j => .binary op (.register i) (.register j) (.register dest)
  | call f is => .call f (is.map fun (i : Nat) => .register i) (.register dest)

namespace Recording

def events : Nat → List Line → List Event
  | _, [] => []
  | dest, l :: ls => l.event dest :: events (dest + 1) ls

def opened : List Event := [.create entryPoint .entry, .position]

def unitLog (ls : List Line) (result : Nat) : List Event :=
  opened ++ (events 0 ls ++ [.ret (.register result), .finalize])

/-! ## What is recorded -/

variable (value : String → Float)

theorem line_runOn {r : Recording} {l : Line} (h : ∀ i ∈ l.operands, i < r.count) :
    ((target.plain value).line (handles r.count) l).runOn r
      = (.ok (.register r.count), ⟨r.log ++ [l.event r.count], r.count + 1⟩) := by
  cases l with
  | const v => rfl
  | binary op i j =>
    have hi : i < r.count := h i (by simp [Line.operands])
    have hj : j < r.count := h j (by simp [Line.operands])
    simp only [Operations.line, Target.plain, target, pick_handles hi, pick_handles hj]
    rfl
  | call f is =>
    have hargs : is.map (pick (handles r.count)) = is.map fun (i : Nat) => .register i :=
      List.map_congr_left fun i hi => pick_handles (h i hi)
    simp only [Operations.line, Target.plain, target, hargs]
    rfl

theorem play_runOn {r : Recording} {ls : List Line} (h : Tree.Ordered r.count ls) :
    ((target.plain value).play ls (handles r.count)).runOn r
      = (.ok (handles (r.count + ls.length)),
          ⟨r.log ++ events r.count ls, r.count + ls.length⟩) := by
  induction ls generalizing r with
  | nil => simp [Operations.play, events]
  | cons l ls ih =>
    have hrest := ih (r := ⟨r.log ++ [l.event r.count], r.count + 1⟩) h.2
    have hcount : r.count + 1 + ls.length = r.count + (l :: ls).length := by
      rw [List.length_cons]
      omega
    rw [Operations.play, Step.runOn_bind_ok (line_runOn value h.1), ← handles_succ, hrest]
    simp only [hcount, events, List.append_assoc, List.cons_append, List.nil_append]

variable {resolver : Resolver} {e : Expr}

theorem opening_runOn : target.opening.runOn .empty = (.ok (), ⟨opened, 0⟩) := rfl

theorem closing_runOn (r : Recording) (h : Handle) :
    (target.closing h).runOn r = (.ok (r.log ++ [.ret h, .finalize]),
      ⟨r.log ++ [.ret h, .finalize], r.count⟩) := by
  change (Except.ok (r.log ++ [.ret h] ++ [.finalize]),
    Recording.mk (r.log ++ [.ret h] ++ [.finalize]) r.count) = _
  rw [List.append_assoc]
  rfl

theorem unit_runOn (h : Resolves resolver e) :
    (target.unit resolver e).runOn .empty
      = (.ok (unitLog (e.lines resolver.value 0) e.inner),
          ⟨unitLog (e.lines resolver.value 0) e.inner, e.inner + 1⟩) := by
  have hplay := play_runOn resolver.value (r := ⟨opened, 0⟩)
    (Tree.ordered_lines resolver.value 0 e)
  have htree : ((target.operations resolver).tree e).runOn ⟨opened, 0⟩
      = (.ok (.register e.inner),
          ⟨opened ++ events 0 (e.lines resolver.value 0), e.inner + 1⟩) := by
    rw [target.operations_tree h,
      Operations.tree_eq_play (target.plain_plain resolver.value) e (handles 0), Step.runOn_map,
      handles_length, hplay, Tree.lines_length]
    simp only [Except.map, Nat.zero_add, pick_handles (Nat.lt_succ_self e.inner)]
  rw [Target.unit, Step.runOn_bind_ok opening_runOn, Step.runOn_bind_ok htree, closing_runOn,
    List.append_assoc]
  rfl

end Recording

theorem Engine.recording_outcome {r : Resolver} {e : Expr} (h : Resolves r e) :
    (recording.compile r .balanced e).outcome
      = .ok (.events (Recording.unitLog (e.lines r.value 0) e.inner)) := by
  rw [compile_outcome]
  change ((Recording.target.unit r e).runOn .empty).1.map _ = _
  rw [Recording.unit_runOn h]
  rfl

namespace Recording

/-! ## Replaying -/

section Replay

variable {m : Type → Type} {ν : Type} [Monad m] (o : Operations m ν) (lost : m ν)

def fetch (env : List (Handle × ν)) (h : Handle) : m ν :=
  match env.lookup h with
  | some v => pure v
  | none => lost

/-- Does what the events say, up to the first return. Handles that nothing gave out are lost. -/
def replay : List (Handle × ν) → List Event → m ν
  | _, [] => lost
  | env, .const v dest :: log => do
    let a ← o.number v
    replay ((dest, a) :: env) log
  | env, .binary op left right dest :: log => do
    let a ← fetch lost env left
    let b ← fetch lost env right
    let v ← o.binary op a b
    replay ((dest, v) :: env) log
  | env, .call f args dest :: log => do
    let vs ← args.mapM (fetch lost env)
    let v ← o.call f vs
    replay ((dest, v) :: env) log
  | env, .ret h :: _ => fetch lost env h
  | env, .create _ _ :: log => replay env log
  | env, .position :: log => replay env log
  | env, .finalize :: log => replay env log

variable [Inhabited ν] {env : List (Handle × ν)} {vs : List ν}

def Assigned (env : List (Handle × ν)) (vs : List ν) : Prop :=
  ∀ i < vs.length, env.lookup (.register i) = some (pick vs i)

theorem Assigned.cons (h : Assigned env vs) (v : ν) :
    Assigned ((.register vs.length, v) :: env) (vs ++ [v]) := by
  refine forall_place_concat (P := fun (i : Nat) x =>
    ((Handle.register vs.length, v) :: env).lookup (.register i) = some x)
    (fun i hi => ?_) List.lookup_cons_self
  have hne : (Handle.register i == Handle.register vs.length) = false := by
    rw [beq_eq_false_iff_ne]
    intro heq
    exact Nat.ne_of_lt hi (Int.ofNat_inj.1 (Handle.register.inj heq))
  rw [List.lookup_cons, hne]
  exact h i hi

theorem Assigned.fetch (h : Assigned env vs) {i : Nat} (hi : i < vs.length) :
    Recording.fetch lost env (.register i) = pure (pick vs i) := by
  rw [Recording.fetch, h i hi]

variable [LawfulMonad m]

theorem Assigned.mapM_fetch (h : Assigned env vs) {is : List Nat} (his : ∀ i ∈ is, i < vs.length) :
    (is.map fun (i : Nat) => Handle.register i).mapM (Recording.fetch lost env)
      = pure (is.map (pick vs)) := by
  induction is with
  | nil => rfl
  | cons i is ih =>
    rw [List.map_cons, List.mapM_cons, h.fetch lost (his i List.mem_cons_self), pure_bind,
      ih fun j hj => his j (List.mem_cons_of_mem _ hj), pure_bind]
    rfl

theorem replay_event (h : Assigned env vs) {l : Line} (hl : ∀ i ∈ l.operands, i < vs.length)
    (log : List Event) :
    replay o lost env (l.event vs.length :: log)
      = o.line vs l >>= fun v => replay o lost ((.register vs.length, v) :: env) log := by
  cases l with
  | const v => rfl
  | binary op i j =>
    have hi : i < vs.length := hl i (by simp [Line.operands])
    have hj : j < vs.length := hl j (by simp [Line.operands])
    rw [Line.event, replay, h.fetch lost hi, pure_bind, h.fetch lost hj, pure_bind]
    rfl
  | call f is =>
    have hargs : ∀ i ∈ is, i < vs.length := hl
    rw [Line.event, replay, h.mapM_fetch lost hargs, pure_bind]
    rfl

theorem replay_events (h : Assigned env vs) {ls : List Line} (hls : Tree.Ordered vs.length ls)
    {result : Nat} (hresult : result < vs.length + ls.length) (log : List Event) :
    replay o lost env (events vs.length ls ++ .ret (.register result) :: log)
      = (pick · result) <$> o.play ls vs := by
  induction ls generalizing env vs with
  | nil =>
    rw [Operations.play, map_pure]
    exact h.fetch lost hresult
  | cons l ls ih =>
    rw [events, List.cons_append, replay_event o lost h hls.1, Operations.play, map_bind]
    refine bind_congr fun v => ?_
    have hlength : (vs ++ [v]).length = vs.length + 1 := List.length_append
    have hrest := ih (h.cons v) (by rw [hlength]; exact hls.2)
      (by rw [hlength]; rw [List.length_cons] at hresult; omega)
    rw [hlength] at hrest
    exact hrest

end Replay

end Recording

theorem Recording.replay_unitLog {m : Type → Type} {ν : Type} [Monad m] [LawfulMonad m]
    [Inhabited ν] (o : Operations m ν) (lost : m ν) (value : String → Float) (e : Expr) :
    replay o lost [] (unitLog (e.lines value 0) e.inner) = (o.naming value).tree e := by
  have hnone : Assigned ([] : List (Handle × ν)) [] := nofun
  have hresult : e.inner < ([] : List ν).length + (e.lines value 0).length := by
    rw [Tree.lines_length, List.length_nil]
    omega
  have h := replay_events o lost hnone (Tree.ordered_lines value 0 e) hresult [.finalize]
  rw [Operations.tree_eq_play (o.naming_plain value) e [], Operations.naming_play,
    List.length_nil, Nat.zero_add, ← h]
  rfl

end ArithCompiler

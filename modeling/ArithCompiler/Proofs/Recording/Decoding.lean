import ArithCompiler.Proofs.Recording.Replay

set_option autoImplicit false

/-!
# Trees from logs

A log is decoded by replaying it with nodes as values. What comes out is the tree that was compiled,
with a number in the place of each name. So a log tells everything about a tree but how its constants
were written.
-/

namespace ArithCompiler

open Resolver (Resolves)

namespace Tree

section Substitute

variable (value : String → Float)

mutual
def substitute : Expr → Expr
  | number v => number v
  | name x => number (value x)
  | binary op l r => binary op (substitute l) (substitute r)
  | call f args => call f (substituteAll args)
  | foreign x => nomatch x

def substituteAll : List Expr → List Expr
  | [] => []
  | e :: es => substitute e :: substituteAll es
end

theorem substituteAll_eq_map (es : List Expr) :
    substituteAll value es = es.map (substitute value) := by
  induction es with
  | nil => rfl
  | cons e es ih => rw [substituteAll, ih, List.map_cons]

theorem substitute_inner (e : Expr) : (substitute value e).inner = e.inner := by
  induction e using exprInduction with
  | number v => rfl
  | name x => rfl
  | binary op l r ihl ihr => rw [substitute, inner, inner, ihl, ihr]
  | call f args ih =>
    rw [substitute, inner, inner]
    clear f
    induction args with
    | nil => rfl
    | cons a args iha =>
      rw [substituteAll, sizes, sizes, ih a List.mem_cons_self,
        iha fun b hb => ih b (List.mem_cons_of_mem _ hb)]

theorem substitute_roots (start : Nat) (es : List Expr) :
    roots start (substituteAll value es) = roots start es := by
  induction es generalizing start with
  | nil => rfl
  | cons e es ih => rw [substituteAll, roots, roots, substitute_inner, ih]

/-- The lines of a tree have its constants already. -/
theorem substitute_lines (value' : String → Float) (start : Nat) (e : Expr) :
    lines value' start (substitute value e) = lines value start e := by
  induction e using exprInduction generalizing start with
  | number v => rfl
  | name x => rfl
  | binary op l r ihl ihr =>
    rw [substitute, lines, lines, ihl, ihr, substitute_inner, substitute_inner]
  | call f args ih =>
    have hargs : linesAll value' start (substituteAll value args) = linesAll value start args := by
      clear f
      induction args generalizing start with
      | nil => rfl
      | cons a args iha =>
        rw [substituteAll, linesAll, linesAll, ih a List.mem_cons_self, substitute_inner,
          iha fun b hb => ih b (List.mem_cons_of_mem _ hb)]
    rw [substitute, lines, lines, hargs, substitute_roots]

theorem substitute_calls (e : Expr) : (substitute value e).calls = e.calls := by
  rw [← lines_calls value 0, substitute_lines, lines_calls]

theorem not_mem_substitute_names (e : Expr) (x : String) : x ∉ (substitute value e).names := by
  induction e using exprInduction with
  | number v => nofun
  | name y => nofun
  | binary op l r ihl ihr => exact fun hx => (List.mem_append.1 hx).elim ihl ihr
  | call f args ih =>
    intro hx
    rw [substitute, substituteAll_eq_map] at hx
    rcases (mem_collect_call _ _ _).1 hx with ⟨a, ha, hx⟩ | hx
    · obtain ⟨b, hb, rfl⟩ := List.mem_map.1 ha
      exact ih b hb hx
    · cases hx

end Substitute

end Tree

theorem Resolver.Resolves.substitute {r : Resolver} {e : Expr} (h : Resolves r e)
    (value : String → Float) : Resolves r (e.substitute value) := by
  refine ⟨fun x hx => absurd hx (Tree.not_mem_substitute_names value e x), ?_, ?_⟩
  · rw [Tree.substitute_calls]
    exact h.enter
  · rw [Tree.substitute_calls]
    exact h.calls

namespace Recording

def building : Operations Option Expr where
  number v := some (.number v)
  name x := some (.name x)
  binary op l r := some (.binary op l r)
  enter _ := some ()
  call f args := some (.call f args)

instance : Inhabited Expr := ⟨.number 0.0⟩

def decode (log : List Event) : Option Expr := replay building none [] log

theorem building_tree (value : String → Float) (e : Expr) :
    (building.naming value).tree e = some (e.substitute value) := by
  induction e using Tree.exprInduction with
  | number v => rfl
  | name x => rfl
  | binary op l r ihl ihr =>
    rw [Operations.tree, ihl, ihr]
    rfl
  | call f args ih =>
    have hargs : (building.naming value).trees args = some (Tree.substituteAll value args) := by
      clear f
      induction args with
      | nil => rfl
      | cons a args iha =>
        rw [Operations.trees, ih a List.mem_cons_self,
          iha fun b hb => ih b (List.mem_cons_of_mem _ hb)]
        rfl
    rw [Operations.tree, hargs]
    rfl

theorem decode_unitLog (value : String → Float) (e : Expr) :
    decode (unitLog (e.lines value 0) e.inner) = some (e.substitute value) := by
  rw [decode, replay_unitLog building none value e, building_tree]

end Recording

namespace Engine

/-- The recording of a tree decodes to the tree with the constants of the scope in the place of the
    names. That tree has the same log, and of all trees in all scopes only those have it that come to
    the same tree. -/
theorem recording_decodes {s : Scope} {e : Expr} (h : Resolves (.scope s) e) :
    let constants := (Resolver.scope s).value
    (∀ x ∈ e.names, s.constants.get? x = some (constants x)) ∧
      ∃ log, (recording.compile (.scope s) .balanced e).outcome = .ok (.events log) ∧
        Recording.decode log = some (e.substitute constants) ∧
        (recording.compile (.scope s) .balanced (e.substitute constants)).outcome
          = .ok (.events log) ∧
        ∀ s' e', Resolves (.scope s') e' →
          ((recording.compile (.scope s') .balanced e').outcome = .ok (.events log) ↔
            e'.substitute (Resolver.scope s').value = e.substitute constants) := by
  intro constants
  refine ⟨fun x hx => ?_, Recording.unitLog (e.lines constants 0) e.inner, recording_outcome h,
    Recording.decode_unitLog constants e, ?_, fun s' e' h' => ?_⟩
  · obtain ⟨v, hv⟩ := Option.isSome_iff_exists.1 (h.names x hx)
    exact hv.trans (congrArg some (congrArg (Option.getD · _) hv).symm)
  · rw [recording_outcome (h.substitute constants), Tree.substitute_lines, Tree.substitute_inner]
  · rw [recording_outcome h']
    constructor
    · intro hlog
      have hdecode := Recording.decode_unitLog (Resolver.scope s').value e'
      rw [Report.events.inj (Except.ok.inj hlog), Recording.decode_unitLog] at hdecode
      exact (Option.some.inj hdecode).symm
    · intro htree
      rw [← Tree.substitute_lines (Resolver.scope s').value constants, htree,
        Tree.substitute_lines, ← Tree.substitute_inner (Resolver.scope s').value, htree,
        Tree.substitute_inner]

/-- A call without arguments and a constant that comes twice, once by its name. -/
theorem recording_decodes_repeated :
    let s : Scope := ⟨[("x", 2.0)], [("f", 3), ("g", 0)]⟩
    let e : Expr := .call "f" [.name "x", .call "g" [], .number 2.0]
    Resolves (.scope s) e ∧ ∃ log,
      (recording.compile (.scope s) .balanced e).outcome = .ok (.events log) ∧
        Recording.decode log = some (.call "f" [.number 2.0, .call "g" [], .number 2.0]) := by
  intro s e
  have h : Resolves (.scope s) e := Resolver.resolves_scope_iff.2 (by decide)
  obtain ⟨-, log, hrun, hdecode, -⟩ := recording_decodes h
  exact ⟨h, log, hrun, hdecode⟩

end Engine

end ArithCompiler

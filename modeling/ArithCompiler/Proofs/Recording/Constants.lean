import ArithCompiler.Proofs.Recording.Replay
import ArithCompiler.Proofs.Tree.Atoms

set_option autoImplicit false

/-!
# The constants of a unit

A backend is asked for one constant at each leaf of a tree, from left to right. A traversal sees the
leaves in the same order, and so they stand in the text of the tree.
-/

namespace ArithCompiler

open Grammar (atomTokens)
open Resolver (Resolves)

def Event.constant? : Event → Option Float
  | .const v _ => some v
  | _ => none

def Line.constant? : Line → Option Float
  | const v => some v
  | _ => none

def Leaf.constant? (r : Resolver) : Leaf → Option Float
  | number v => some v
  | name x => r.constant? x
  | bare => none

namespace Tree

variable {r : Resolver} {e : Expr}

theorem lines_constants (h : Resolves r e) (start : Nat) :
    ((lines r.value start e).filterMap Line.constant?).map some
      = e.atoms.map (Leaf.constant? r) := by
  induction e using exprInduction generalizing start with
  | number v => rfl
  | name x =>
    obtain ⟨v, hv⟩ := Option.isSome_iff_exists.1 (h.names x (List.mem_singleton.2 rfl))
    change [some (r.value x)] = [r.constant? x]
    rw [Resolver.value, hv, Option.getD_some]
  | binary op l rt ihl ihr =>
    rw [lines, List.filterMap_append, List.filterMap_append, List.map_append, List.map_append,
      ihl (h.subtree (.left op (.refl l))), ihr (h.subtree (.right op (.refl rt))), atoms_binary,
      List.map_append]
    exact congrArg _ (List.append_nil _)
  | call f args ih =>
    have hargs : ∀ as ⊆ args, ∀ start,
        ((linesAll r.value start as).filterMap Line.constant?).map some
          = (as.flatMap atoms).map (Leaf.constant? r) := by
      intro as
      induction as with
      | nil => exact fun _ _ => rfl
      | cons a as iha =>
        intro has start
        have ha : a ∈ args := has List.mem_cons_self
        rw [linesAll, List.filterMap_append, List.map_append, List.flatMap_cons, List.map_append,
          ih a ha (h.subtree (.argument f ha (.refl a))),
          iha fun b hb => has (List.mem_cons_of_mem a hb)]
    rw [lines, List.filterMap_append, List.map_append, hargs args (List.Subset.refl args), atoms_call]
    exact List.append_nil _

end Tree

namespace Recording

theorem events_constants (dest : Nat) (ls : List Line) :
    (events dest ls).filterMap Event.constant? = ls.filterMap Line.constant? := by
  induction ls generalizing dest with
  | nil => rfl
  | cons l ls ih =>
    cases l with
    | const v => exact congrArg (v :: ·) (ih (dest + 1))
    | binary op i j => exact ih (dest + 1)
    | call f is => exact ih (dest + 1)

theorem unitLog_constants (ls : List Line) (result : Nat) :
    (unitLog ls result).filterMap Event.constant? = ls.filterMap Line.constant? := by
  rw [unitLog, List.filterMap_append, List.filterMap_append, events_constants]
  exact List.append_nil _

end Recording

namespace Tree

/-- There is one order of the leaves of a tree. A traversal that goes through everything sees each
    leaf once, from left to right. A unit asks for one constant a leaf, in this order, when names and
    calls can be resolved. The numbers and the names before no parenthesis are these leaves again in
    the tokens of the text, a number without its sign and one that is not finite by its name. -/
theorem atoms_in_order {e : Expr} (h : Nameable e) :
    (Visitor.leaves fun l => [l]).visit e = ⟨e.atoms, none⟩ ∧
    (∀ r, Resolves r e → ∃ log,
      (Engine.recording.compile r .balanced e).outcome = .ok (.events log) ∧
        (log.filterMap Event.constant?).map some = e.atoms.map (Leaf.constant? r)) ∧
    ∃ tokens, tokenize e.toSource = .ok tokens ∧
      (atomTokens tokens).map Token.leaf? = e.atoms.map fun a => some a.shown := by
  refine ⟨?_, fun r hr => ⟨_, Engine.recording_outcome hr, ?_⟩, tokenize_atoms h⟩
  · rw [Visitor.leaves_visit, List.flatMap_singleton']
  · rw [Recording.unitLog_constants, lines_constants hr]

/-- The names that are called are no leaves, and the number that `g` takes has no digits. -/
theorem atoms_in_order_minus_two_times_f :
    let e : Expr := .binary .multiply (.number (-2.0))
      (.call "f" [.name "x", .call "g" [.number Number.positiveInfinity]])
    let r := Resolver.scope ⟨[("x", 4.0)], [("f", 2), ("g", 1)]⟩
    Nameable e ∧ Resolves r e ∧
    (Visitor.leaves fun l => [l]).visit e
      = ⟨[.number (-2.0), .name "x", .number Number.positiveInfinity], none⟩ ∧
    (∃ log, (Engine.recording.compile r .balanced e).outcome = .ok (.events log) ∧
      (log.filterMap Event.constant?).map some
        = [some (-2.0), some 4.0, some Number.positiveInfinity]) ∧
    ∃ tokens, tokenize e.toSource = .ok tokens ∧
      (atomTokens tokens).map Token.leaf?
        = [some (.number 2.0), some (.name "x"), some (.name "inf")] := by
  intro e r
  have hnameable : Nameable e := by
    refine ⟨fun x hx => ?_, fun c hc => ?_⟩
    · obtain rfl := List.mem_singleton.1 hx
      exact ⟨'x', [], rfl, by decide, nofun⟩
    · obtain rfl | rfl := List.mem_pair.1 hc
      · exact ⟨'g', [], rfl, by decide, nofun⟩
      · exact ⟨'f', [], rfl, by decide, nofun⟩
  have hresolves : Resolves r e := Resolver.resolves_scope_iff.2 (by decide)
  obtain ⟨hvisit, hlog, htokens⟩ := atoms_in_order hnameable
  exact ⟨hnameable, hresolves, hvisit, hlog r hresolves, htokens⟩

end Tree

end ArithCompiler

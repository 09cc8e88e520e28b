import ArithCompiler.Proofs.Compiler.Refusal
import ArithCompiler.Proofs.Engine.Runs
import ArithCompiler.Proofs.Recording.Replay

set_option autoImplicit false

/-!
# The log of a refusal

A recording refuses nothing by itself. So a compilation fails at the first visit that the resolver
refuses, and what was recorded until then are the nodes that were done.
-/

namespace ArithCompiler

open Bytecode (handles)
open Resolver (Passes Stops)

namespace Resolver

/-- The lines that are there when visits stop belong to the visits with which a node was done. -/
theorem Stops.lines {r : Resolver} {e : Expr} {done : Nat} {f : Fault}
    (h : Stops r e.visits done f) : ∃ before v after, e.visits = before ++ v :: after ∧
      Passes r before ∧ r.refusal v = some f ∧
      ((e.lines r.value 0).take done).map Line.visit
        = (before.filter Visit.completes).map (Visit.resolved r.value) := by
  obtain ⟨before, v, after, hvisits, hbefore, hv, rfl⟩ := h
  refine ⟨before, v, after, hvisits, hbefore, hv, ?_⟩
  rw [List.map_take, Tree.lines_visits, hvisits, List.filter_append, List.map_append,
    List.countP_eq_length_filter, ← List.length_map (Visit.resolved r.value), List.take_left]

theorem findSome?_refusal {r : Resolver} {before after : List Visit} {v : Visit} {f : Fault}
    (h : Passes r before) (hv : r.refusal v = some f) :
    (before ++ v :: after).findSome? r.refusal = some f := by
  have hrefused : (r.refusal v).isSome := by rw [hv, Option.isSome_some]
  rw [List.findSome?_append, List.findSome?_eq_none_iff.2 h, Option.none_or,
    List.findSome?_cons_of_isSome hrefused, hv]

end Resolver

namespace Recording

theorem halted_runOn {α : Type} (resolver : Resolver) {r : Recording} {ls : List Line}
    (h : Tree.Ordered r.count ls) (f : Fault) :
    (target.halted resolver ls (handles r.count) f : Step Recording α).runOn r
      = (.error f, ⟨r.log ++ events r.count ls, r.count + ls.length⟩) := by
  rw [Target.halted, Step.runOn_bind_ok (play_runOn resolver.value h), Step.runOn_throw]

theorem mem_events {dest : Nat} {ls : List Line} {event : Event} (h : event ∈ events dest ls) :
    ∃ l ∈ ls, ∃ dest, event = l.event dest := by
  induction ls generalizing dest with
  | nil => cases h
  | cons l ls ih =>
    rcases List.mem_cons.1 h with rfl | h
    · exact ⟨l, List.mem_cons_self, dest, rfl⟩
    · obtain ⟨l', hl', dest, rfl⟩ := ih h
      exact ⟨l', List.mem_cons_of_mem _ hl', dest, rfl⟩

theorem not_mem_opened_events (ls : List Line) :
    (∀ h, .ret h ∉ opened ++ events 0 ls) ∧ .finalize ∉ opened ++ events 0 ls := by
  have hlines : ∀ event, event ∈ opened ++ events 0 ls →
      event ∈ opened ∨ ∃ l : Line, ∃ dest, event = l.event dest := by
    intro event h
    refine (List.mem_append.1 h).imp id fun h => ?_
    obtain ⟨l, -, dest, heq⟩ := mem_events h
    exact ⟨l, dest, heq⟩
  constructor
  · intro h hmem
    rcases hlines _ hmem with hmem | ⟨l, dest, heq⟩
    · exact absurd hmem (by simp [opened])
    · cases l <;> cases heq
  · intro hmem
    rcases hlines _ hmem with hmem | ⟨l, dest, heq⟩
    · exact absurd hmem (by decide)
    · cases l <;> cases heq

end Recording

namespace Engine

theorem recording_halted {r : Resolver} {e : Expr} {done : Nat} {f : Fault}
    (h : Stops r e.visits done f) :
    let run := recording.compile r .balanced e
    run.outcome = .error f ∧ run.phase = .body ∧
      run.recorded = Recording.opened ++ Recording.events 0 ((e.lines r.value 0).take done) := by
  have hordered := (Tree.ordered_lines r.value 0 e).take done
  have htree : ((Recording.target.operations r).tree e).runOn ⟨Recording.opened, 0⟩
      = (.error f, ⟨Recording.opened ++ Recording.events 0 ((e.lines r.value 0).take done),
          0 + ((e.lines r.value 0).take done).length⟩) := by
    rw [Target.tree_halted h (handles 0), Bytecode.handles_length]
    exact Recording.halted_runOn r (r := ⟨Recording.opened, 0⟩) hordered f
  exact compile_stopped recording r Recording.opening_runOn htree

/-- A recording fails if and only if the resolver refuses a visit of the tree. The fault is that of
    the first refusal, the nodes done before it are what was recorded since the opening, and the unit
    stays open. -/
theorem recording_fails (r : Resolver) (e : Expr) :
    let run := recording.compile r .balanced e
    ((∃ f, run.outcome = .error f) ↔ ∃ v ∈ e.visits, (r.refusal v).isSome) ∧
      ∀ f, run.outcome = .error f → ∃ before v after ls,
        e.visits = before ++ v :: after ∧ (∀ u ∈ before, r.refusal u = none) ∧
          r.refusal v = some f ∧ ls <+: e.lines r.value 0 ∧
          ls.map Line.visit = (before.filter Visit.completes).map (Visit.resolved r.value) ∧
          run.recorded = Recording.opened ++ Recording.events 0 ls ∧ run.phase = .body ∧
          (∀ h, .ret h ∉ run.recorded) ∧ .finalize ∉ run.recorded := by
  intro run
  rcases Resolver.passes_or_stops r e.visits with h | ⟨done, f, h⟩
  · have houtcome : run.outcome = .ok _ := recording_outcome (Resolver.resolves_of_passes h)
    refine ⟨⟨fun ⟨f, hf⟩ => ?_, fun ⟨v, hv, hrefused⟩ => ?_⟩, fun f hf => ?_⟩
    · cases houtcome.symm.trans hf
    · rw [h v hv] at hrefused
      cases hrefused
    · cases houtcome.symm.trans hf
  · obtain ⟨houtcome, hphase, hrecorded⟩ := recording_halted h
    obtain ⟨before, v, after, hvisits, hbefore, hv, hlines⟩ := h.lines
    refine ⟨⟨fun _ => ⟨v, ?_, ?_⟩, fun _ => ⟨f, houtcome⟩⟩, fun f' hf' => ?_⟩
    · rw [hvisits]
      exact List.mem_append_right _ List.mem_cons_self
    · rw [hv]
      rfl
    · obtain rfl := Except.error.inj (houtcome.symm.trans hf')
      obtain ⟨hret, hfinalize⟩ := Recording.not_mem_opened_events ((e.lines r.value 0).take done)
      rw [← hrecorded] at hret hfinalize
      exact ⟨before, v, after, _, hvisits, hbefore, hv, List.take_prefix _ _, hlines, hrecorded,
        hphase, hret, hfinalize⟩

/-- Without a resolver the call is refused before its argument, with one after it. -/
theorem recording_fails_in_order :
    let e : Expr := .call "f" [.name "x"]
    (recording.compile .missing .balanced e).outcome
        = .error (.unsupported (.callWithoutResolver "f")) ∧
      (recording.compile .refusing .balanced e).outcome = .error (.unbound "x") := by
  intro e
  have hfault : ∀ r f, e.visits.findSome? r.refusal = some f →
      (recording.compile r .balanced e).outcome = .error f := by
    intro r f hf
    obtain ⟨hfails, hfirst⟩ := recording_fails r e
    obtain ⟨w, hw, hrefused⟩ := List.exists_of_findSome?_eq_some hf
    obtain ⟨f', hf'⟩ := hfails.2 ⟨w, hw, by rw [hrefused]; rfl⟩
    obtain ⟨before, v, after, ls, hvisits, hbefore, hv, -⟩ := hfirst f' hf'
    rw [hvisits, Resolver.findSome?_refusal hbefore hv] at hf
    rw [hf', Option.some.inj hf]
  exact ⟨hfault _ _ rfl, hfault _ _ rfl⟩

end Engine

end ArithCompiler

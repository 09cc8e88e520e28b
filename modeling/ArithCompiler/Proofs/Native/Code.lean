import ArithCompiler.Proofs.Compiler.Resolution
import ArithCompiler.Proofs.Native.Body

set_option autoImplicit false

/-!
# Native code of a tree

Going through the lines of a tree fills the body of a unit, and the operands that come out stand for
the values that an evaluator computes at the same lines.
-/

namespace ArithCompiler

open Math (Elementary RunError)
open NativeInstr (results dests)
open Resolver (Resolves)

def ieeeEvaluation (value : String → Float) (function : String → List Float → Float) :
    Operations (Except RunError) Float where
  number v := .ok v
  name x := .ok (value x)
  binary op a b := .ok (arithmetic op a b)
  enter _ := .ok ()
  call f args := .ok (function f args)

theorem ieeeEvaluation_plain (value : String → Float) (function : String → List Float → Float) :
    (ieeeEvaluation value function).Plain value := ⟨fun _ => rfl, fun _ => rfl⟩

theorem ieeeEvaluation_total (value : String → Float) (function : String → List Float → Float) :
    (ieeeEvaluation value function).Total :=
  ⟨fun _ => ⟨_, rfl⟩, fun _ => ⟨_, rfl⟩, fun _ _ _ => ⟨_, rfl⟩, fun _ => rfl, fun _ _ => ⟨_, rfl⟩⟩

namespace NativeModule

variable (c : Elementary) (level : Int) {body : List NativeInstr}
  {declarations : List Declaration} {hs : List Operand} {vs : List Float} (value : String → Float)

theorem emit_runOn (stem : Stem) (i : ResultName → NativeInstr) :
    (emit stem i).runOn (filling body declarations)
      = (.ok (.result (Filled.next body stem)),
          filling (body ++ [i (Filled.next body stem)]) declarations) := rfl

theorem call_runOn {function : String} {args : List Operand} {declarations' : List Declaration}
    {callee : String}
    (h : (declare function args.length).runOn (filling body declarations)
      = (.ok (callee, args.length), filling body declarations')) :
    ((target c level).call function args).runOn (filling body declarations)
      = (.ok (.result (Filled.next body .call)),
          filling (body ++ [.call (Filled.next body .call) callee args]) declarations') := by
  change (declare function args.length >>= _).runOn _ = _
  rw [Step.runOn_bind_ok h]
  simp only [Step.runOn_bind, Step.runOn_get]
  rw [if_neg (Nat.lt_irrefl _)]
  rfl

theorem line_runOn (h : Filled c body declarations hs vs) {l : Line}
    (hl : ∀ i ∈ l.operands, i < vs.length)
    (hcall : ∀ q, l.call? = some q → (q.1, (q.2 : Int)) ∈ Math.arities) :
    ∃ o v body' declarations',
      (((target c level).plain value).line hs l).runOn (filling body declarations)
        = (.ok o, filling body' declarations') ∧
      (ieeeEvaluation value (Math.symbol c)).line vs l = .ok v ∧
      Filled c body' declarations' (hs ++ [o]) (vs ++ [v]) := by
  cases l with
  | const v => exact ⟨.const v, v, body, declarations, rfl, rfl, h.const v⟩
  | binary op i j =>
    have hi := h.stands i (hl i (by simp [Line.operands]))
    have hj := h.stands j (hl j (by simp [Line.operands]))
    let code (dest : ResultName) : NativeInstr := .binary op dest (pick hs i) (pick hs j)
    have hvalue : (code (Filled.next body (.operator op))).value c (results c body)
        = arithmetic op (pick vs i) (pick vs j) := by
      change arithmetic op _ _ = _
      rw [hi.get_eq, hj.get_eq]
    have hfilled := h.emit (.operator op) (i := code (Filled.next body (.operator op))) rfl
      (by
        intro o ho
        rcases List.mem_cons.1 ho with rfl | ho
        · exact hi.known
        · rw [List.mem_singleton.1 ho]
          exact hj.known)
      (by
        intro dest callee args hcode
        cases hcode)
    rw [hvalue] at hfilled
    exact ⟨_, _, _, _, emit_runOn (.operator op) code, rfl, hfilled⟩
  | call f is =>
    have hargs : ∀ o ∈ is.map (pick hs), NativeInstr.Known (dests body) o := by
      intro o ho
      obtain ⟨i, hi, rfl⟩ := List.mem_map.1 ho
      exact (h.stands i (hl i hi)).known
    have hmem := hcall (f, is.length) rfl
    obtain ⟨declarations', hdeclare, hsub, hlibrary, hdeclared⟩ := declare_runOn h.library body hmem
    rw [← List.length_map (pick hs)] at hdeclare
    let code := NativeInstr.call (Filled.next body .call)
      (Declaration.ofFunction f (is.map (pick hs)).length).name (is.map (pick hs))
    have hvalue : code.value c (results c body) = Math.symbol c f (is.map (pick vs)) := by
      change callNative c [] _ ((is.map (pick hs)).map (results c body).get) = _
      rw [List.length_map, callNative_library c hmem, List.map_map]
      congr 1
      apply List.map_congr_left
      intro i hi
      exact (h.stands i (hl i hi)).get_eq
    have hfilled := (h.declare hlibrary hsub).emit .call (i := code) rfl hargs
      (by
        intro dest callee args heq
        obtain ⟨-, rfl, rfl⟩ := NativeInstr.call.inj heq
        rw [List.length_map]
        exact ⟨_, hdeclared, rfl, rfl⟩)
    rw [hvalue] at hfilled
    exact ⟨_, _, _, _, call_runOn c level hdeclare, rfl, hfilled⟩

def Called (ls : List Line) : Prop :=
  ∀ q ∈ ls.filterMap Line.call?, (q.1, (q.2 : Int)) ∈ Math.arities

theorem play_runOn (h : Filled c body declarations hs vs) {ls : List Line}
    (hls : Tree.Ordered vs.length ls) (hcalls : Called ls) :
    ∃ hs' vs' body' declarations',
      (((target c level).plain value).play ls hs).runOn (filling body declarations)
        = (.ok hs', filling body' declarations') ∧
      (ieeeEvaluation value (Math.symbol c)).play ls vs = .ok vs' ∧
      Filled c body' declarations' hs' vs' ∧ vs'.length = vs.length + ls.length := by
  induction ls generalizing body declarations hs vs with
  | nil => exact ⟨hs, vs, body, declarations, rfl, rfl, h, rfl⟩
  | cons l ls ih =>
    obtain ⟨hhead, htail⟩ := Line.forall_calls_cons.1 hcalls
    obtain ⟨o, v, body₁, declarations₁, hrun, hvalue, hfilled⟩ :=
      line_runOn c level value h hls.1 hhead
    have hlength : (vs ++ [v]).length = vs.length + 1 := List.length_append
    obtain ⟨hs', vs', body', declarations', hrun', hvalues, hfilled', hlength'⟩ :=
      ih hfilled (by rw [hlength]; exact hls.2) htail
    refine ⟨hs', vs', body', declarations', ?_, ?_, hfilled', ?_⟩
    · rw [Operations.play, Step.runOn_bind_ok hrun, hrun']
    · rw [Operations.play, hvalue]
      exact hvalues
    · rw [hlength', hlength, List.length_cons]
      omega

variable {r : Resolver} {e : Expr}

/-- Compiling a tree adds one operand for each node; the last one stands for the value of the
    tree. -/
theorem tree_runOn (h : Filled c body declarations hs vs) (hresolves : Resolves r e)
    (hcalls : ∀ q ∈ e.calls, (q.1, (q.2 : Int)) ∈ Math.arities) :
    ∃ o v hs' vs' body' declarations',
      (((target c level).operations r).tree e).runOn (filling body declarations)
        = (.ok o, filling body' declarations') ∧
      (ieeeEvaluation r.value (Math.symbol c)).tree e = .ok v ∧
      Filled c body' declarations' hs' vs' ∧ Stands c body' o v := by
  have hlines : Called (e.lines r.value vs.length) := by
    intro q hq
    rw [Tree.lines_calls] at hq
    exact hcalls q hq
  obtain ⟨hs', vs', body', declarations', hrun, hvalues, hfilled, hlength⟩ :=
    play_runOn c level r.value h (Tree.ordered_lines r.value vs.length e) hlines
  rw [Tree.lines_length] at hlength
  refine ⟨pick hs' (vs.length + e.inner), pick vs' (vs.length + e.inner), hs', vs', body',
    declarations', ?_, ?_, hfilled, hfilled.stands _ (by omega)⟩
  · rw [(target c level).operations_tree hresolves,
      Operations.tree_eq_play ((target c level).plain_plain r.value) e hs, Step.runOn_map,
      h.length_eq, hrun]
    rfl
  · rw [Operations.tree_eq_play (ieeeEvaluation_plain r.value (Math.symbol c)) e vs, hvalues]
    rfl

/-! ## The whole unit -/

theorem opening_runOn : (target c level).opening.runOn .empty = (.ok (), filling [] []) := rfl

theorem functions_filling : (filling body declarations).functions = [⟨entryPoint, body⟩] := by
  refine congrArg (List.cons _) (List.filterMap_eq_nil_iff.2 ?_)
  intro g hg
  obtain ⟨d, -, rfl⟩ := List.mem_map.1 hg
  rfl

theorem mem_externals {symbol : String} (h : symbol ∈ (filling body declarations).externals) :
    ∃ d ∈ declarations, d.external ∧ d.name = symbol := by
  obtain ⟨g, hg, hsymbol⟩ := List.mem_filterMap.1 h
  rcases List.mem_cons.1 hg with rfl | hg
  · cases hsymbol
  · obtain ⟨d, hd, rfl⟩ := List.mem_map.1 hg
    by_cases hexternal : d.external
    · simp only [if_pos hexternal, Option.some.injEq] at hsymbol
      exact ⟨d, hd, hexternal, hsymbol⟩
    · simp only [if_neg hexternal] at hsymbol
      cases hsymbol

theorem native?_external {d : Declaration} (hd : d ∈ Declaration.library) (h : d.external) :
    (Math.native? c d.name).isSome := by
  obtain ⟨p, hp, rfl⟩ := List.mem_map.1 hd
  have hname : (Declaration.ofFunction p.1 p.2).name = p.1 := by
    change (intrinsic? p.1).getD p.1 = p.1
    rw [Option.isNone_iff_eq_none.1 h, Option.getD_none]
  rw [hname]
  exact Math.native?_isSome c p hp

theorem isValid_filling (hlibrary : ∀ d ∈ declarations, d ∈ Declaration.library)
    (hclosed : (filling body declarations).isClosed [] body = true) :
    (filling body declarations).isValid = true := by
  rw [isValid, List.all_eq_true]
  intro g hg
  rcases List.mem_cons.1 hg with rfl | hg
  · change (!isReserved entryPoint && _) = true
    rw [hclosed]
    rfl
  · obtain ⟨d, hd, rfl⟩ := List.mem_map.1 hg
    exact d.intrinsic_arity (hlibrary d hd)

theorem finish_filling (hlibrary : ∀ d ∈ declarations, d ∈ Declaration.library)
    (hclosed : (filling body declarations).isClosed [] body = true) :
    (filling body declarations).finish c level entryPoint
      = .ok ⟨entryPoint, filling body declarations, level⟩ := by
  have hsymbols : (filling body declarations).externals.find?
      (fun symbol => (Math.native? c symbol).isNone) = none := by
    rw [List.find?_eq_none]
    intro symbol hsymbol
    obtain ⟨d, hd, hexternal, rfl⟩ := mem_externals hsymbol
    rw [Bool.not_eq_true, Option.isNone_eq_false_iff]
    exact native?_external c (hlibrary d hd) hexternal
  have hfound : (filling body declarations).functions.all (·.name != entryPoint) = false := by
    rw [functions_filling]
    rfl
  rw [finish, isValid_filling hlibrary hclosed, hsymbols, hfound]
  rfl

abbrev returning (body : List NativeInstr) (declarations : List Declaration) (o : Operand) :
    NativeModule :=
  filling (body ++ [.ret o]) declarations

theorem closing_runOn (h : Filled c body declarations hs vs) {o : Operand} {v : Float}
    (ho : Stands c body o v) :
    ((target c level).closing o).runOn (filling body declarations)
      = (.ok ⟨entryPoint, returning body declarations o, level⟩,
          returning body declarations o) := by
  have hret : ((target c level).ret o).runOn (filling body declarations)
      = (.ok (), returning body declarations o) := by
    have hreturned : (⟨entryPoint, body⟩ : NativeFunction).hasReturned = false :=
      h.sound.any_isReturn
    have htarget : (filling body declarations).target? = .ok ⟨entryPoint, body⟩ := rfl
    simp only [target, Step.runOn_bind, Step.runOn_get, Step.runOn_lift, htarget, hreturned]
    rfl
  have hclosed : (returning body declarations o).isClosed [] (body ++ [.ret o]) = true := by
    refine h.sound.isClosed ?_ ?_
    · intro dest callee args hi
      obtain ⟨d, hd, rfl, harity⟩ := h.declared dest callee args hi
      rw [arity?_declared h.library hd, harity]
    · rw [List.append_nil]
      exact ho.known
  have hfinalize :
      ((target c level).finalize entryPoint).runOn (returning body declarations o)
        = ((returning body declarations o).finish c level entryPoint,
            returning body declarations o) :=
    (Step.runOn_bind_ok (Step.runOn_get _)).trans (Step.runOn_lift _ _)
  rw [Target.closing, Step.runOn_bind_ok hret, hfinalize,
    finish_filling c level h.library hclosed]

end NativeModule

theorem NativeUnit.run_returning (c : Elementary) (level : Int) {body : List NativeInstr}
    (declarations : List Declaration) {o : Operand} {v : Float}
    (hsound : NativeInstr.Sound [] body) (ho : Stands c body o v) :
    NativeUnit.run c ⟨entryPoint, .returning body declarations o, level⟩ = v := by
  rw [NativeUnit.run, NativeModule.unitValues, NativeModule.functions_filling]
  change (List.lookup entryPoint [(entryPoint, runBody c [] [] (body ++ [.ret o]))]).getD _ = v
  rw [List.lookup_cons_self, Option.getD_some, NativeInstr.runBody_return c hsound]
  exact ho.get_eq

namespace NativeModule

variable (c : Elementary) (level : Int) {s : Scope}

section Library

variable (hs : ∀ q ∈ s.functions, q ∈ Math.arities)
include hs

theorem carries : (target c level).Carries (.scope s) fun m => ∃ body declarations hs vs,
    m = filling body declarations ∧ Filled c body declarations hs vs := by
  rintro e _ hresolves ⟨body, declarations, hs', vs, rfl, hfilled⟩
  obtain ⟨o, v, hs'', vs', body', declarations', hrun, -, hfilled', -⟩ :=
    tree_runOn c level hfilled hresolves (Scope.library_calls hs hresolves)
  exact ⟨o, _, hrun, body', declarations', hs'', vs', rfl, hfilled'⟩

theorem exists_unit {e : Expr} (h : Resolves (.scope s) e) :
    ∃ u v, ((target c level).unit (.scope s) e).runOn .empty = (.ok u, u.code) ∧
      (ieeeEvaluation (Resolver.scope s).value (Math.symbol c)).tree e = .ok v ∧ u.run c = v := by
  obtain ⟨o, v, hs', vs, body, declarations, hrun, hvalue, hfilled, ho⟩ :=
    tree_runOn c level (.empty) h (Scope.library_calls hs h)
  refine ⟨⟨entryPoint, returning body declarations o, level⟩, v, ?_, hvalue,
    NativeUnit.run_returning c level declarations hfilled.sound ho⟩
  rw [Target.unit, Step.runOn_bind_ok (opening_runOn c level), Step.runOn_bind_ok hrun,
    closing_runOn c level hfilled ho]

theorem unit_refused {e : Expr} {f : Fault} (h : (Resolver.scope s).check e = .error f) :
    (((target c level).unit (.scope s) e).runOn .empty).1 = .error f :=
  (carries c level hs).foretells.unit_refused h (opening_runOn c level) ⟨[], [], [], [], rfl, .empty⟩

end Library

end NativeModule

end ArithCompiler

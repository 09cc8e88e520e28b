import ArithCompiler.Proofs.Compiler.Phases
import ArithCompiler.Proofs.Lexer.Words
import ArithCompiler.Proofs.Native.Calls
import ArithCompiler.Proofs.Native.Texts

set_option autoImplicit false

/-!
# Modules that compilations make

A compilation fills one unit, and calls add their declarations in the order in which names are
first used. When each name is called with one number of arguments only, the module is well formed,
and it is valid as soon as the intrinsics among the names have one argument.
-/

namespace ArithCompiler

open Math (Elementary)
open NativeInstr (dests Known Sound)
open Resolver (Resolves)
open Lexer (isNameChar isNameStart)

theorem IsIdentifier.not_mem_intrinsics {f : String} (h : IsIdentifier f) : f ∉ intrinsics := by
  obtain ⟨c, cs, htext, hc, hcs⟩ := h
  have hchars := Lexer.forall_isNameChar hc hcs
  have hdot : ∀ g ∈ intrinsics, '.' ∈ g.toList := by decide +kernel
  intro hmem
  rw [← htext] at hchars
  exact absurd (hchars _ (hdot f hmem)) (by decide)

namespace NativeModule

variable {f g : String} {calls : List (String × Nat)} {ds : List Declaration}

theorem calleeName_of_none (h : intrinsic? f = none) : calleeName f = f := by
  rw [calleeName, h, Option.getD_none]

theorem calleeName_injOn (hf : IsIdentifier f) (hg : IsIdentifier g)
    (h : calleeName f = calleeName g) : f = g := by
  rw [← symbolName_of_not_mem hf.not_mem_intrinsics, ← symbolName_of_not_mem hg.not_mem_intrinsics,
    ← symbolName_calleeName f, ← symbolName_calleeName g, h]

theorem mem_of_calleeName_mem (hf : f ∉ intrinsics) (h : calleeName f ∈ intrinsics) :
    f ∈ ["sqrt", "fabs"] := by
  unfold calleeName intrinsic? at h
  split at h
  · exact List.mem_cons_self
  · exact List.mem_cons_of_mem _ List.mem_cons_self
  · exact absurd h hf

/-! ## Declarations -/

structure Tallied (calls : List (String × Nat)) (ds : List Declaration) : Prop where
  names : ds.map (·.name) = (calls.map (calleeName ·.1)).eraseDups
  nodup : (ds.map (·.name)).Nodup
  made : ∀ d ∈ ds, ∃ q ∈ calls, d = .ofFunction q.1 q.2
  others : ∀ q ∈ calls, calleeName q.1 ≠ entryPoint

theorem Tallied.nil : Tallied [] [] := ⟨rfl, List.nodup_nil, nofun, nofun⟩

theorem Tallied.mem_names_iff (h : Tallied calls ds) {name : String} :
    name ∈ ds.map (·.name) ↔ name ∈ calls.map (calleeName ·.1) := by
  rw [h.names, List.mem_eraseDups]

/-- Of a name there is one global at most, as long as it is not that of the unit. -/
theorem arity?_filling_isNone {body : List NativeInstr} {name : String} (h : name ≠ entryPoint) :
    ((filling body ds).arity? name).isNone ↔ name ∉ ds.map (·.name) := by
  rw [arity?_filling h, Option.isNone_map, Option.isNone_iff_eq_none, List.find?_eq_none]
  simp

/-- A granted call is not of the unit itself. -/
theorem Admits.ne_entryPoint {body : List NativeInstr} {count : Nat}
    (h : (filling body ds).Admits f count) : calleeName f ≠ entryPoint := by
  intro hself
  have hnone : intrinsic? f = none := by
    refine intrinsic?_of_not_mem ?_
    rw [hself]
    decide
  have harity : (filling body ds).arity? (calleeName f) = some 0 := by
    rw [hself]
    rfl
  have hunit := ((h 0 harity).2 hnone).2
  rw [calleeName_of_none hnone] at hself
  subst hself
  exact Bool.false_ne_true (hunit.symm.trans (beq_self_eq_true entryPoint))

theorem Tallied.call {body : List NativeInstr} {count : Nat} (h : Tallied calls ds)
    (hadmits : (filling body ds).Admits f count) :
    Tallied (calls ++ [(f, count)]) (ds ++ (filling body ds).added f count) := by
  have hne := hadmits.ne_entryPoint
  have hothers : ∀ q ∈ calls ++ [(f, count)], calleeName q.1 ≠ entryPoint := by
    intro q hq
    rcases List.mem_append.1 hq with hq | hq
    · exact h.others q hq
    · obtain rfl := List.mem_singleton.1 hq
      exact hne
  have hmade : ∀ d ∈ ds, ∃ q ∈ calls ++ [(f, count)], d = .ofFunction q.1 q.2 := by
    intro d hd
    obtain ⟨q, hq, heq⟩ := h.made d hd
    exact ⟨q, List.mem_append_left _ hq, heq⟩
  rw [added]
  -- only the first call of a name adds a declaration, as `eraseDups` keeps the first of its kind
  by_cases hdeclared : calleeName f ∈ calls.map (calleeName ·.1)
  · have hsome : ¬ ((filling body ds).arity? (calleeName f)).isNone := by
      rw [arity?_filling_isNone hne, not_not, h.mem_names_iff]
      exact hdeclared
    rw [if_neg hsome, List.append_nil]
    refine ⟨?_, h.nodup, hmade, hothers⟩
    rw [h.names, List.map_append, List.eraseDups_append]
    simp [List.removeAll, hdeclared]
  · have hnone : ((filling body ds).arity? (calleeName f)).isNone := by
      rw [arity?_filling_isNone hne, h.mem_names_iff]
      exact hdeclared
    rw [if_pos hnone]
    refine ⟨?_, ?_, fun d hd => ?_, hothers⟩
    · rw [List.map_append, h.names, List.map_append, List.eraseDups_append]
      have hnew : List.removeAll [calleeName f] (calls.map (calleeName ·.1)) = [calleeName f] := by
        simp [List.removeAll, hdeclared]
      exact congrArg (_ ++ List.eraseDups ·) hnew.symm
    · rw [List.map_append, List.map_singleton, ← List.concat_eq_append]
      exact h.nodup.concat (mt h.mem_names_iff.1 hdeclared)
    · rcases List.mem_append.1 hd with hd | hd
      · exact hmade d hd
      · exact ⟨(f, count), by simp, List.mem_singleton.1 hd⟩

section Run

variable (c : Elementary) (level : Int) (value : String → Float) {body : List NativeInstr}
  {before ls : List Line} {l : Line} {m : NativeModule}

theorem Tallied.line (h : Tallied (before.filterMap Line.call?) ds) {hs : List Operand}
    {o : Operand} (hrun : (((target c level).plain value).line hs l).runOn (filling body ds)
      = (.ok o, m)) : Tallied ((before ++ [l]).filterMap Line.call?) m.declarations := by
  rw [List.filterMap_append]
  cases l with
  | const v =>
    cases hrun
    rw [show [Line.const v].filterMap Line.call? = [] from rfl, List.append_nil]
    exact h
  | binary op i j =>
    let code (dest : ResultName) : NativeInstr := .binary op dest (pick hs i) (pick hs j)
    have hemit : (emit (.operator op) code).runOn (filling body ds) = (.ok o, m) := hrun
    rw [emit_runOn] at hemit
    cases hemit
    rw [show [Line.binary op i j].filterMap Line.call? = [] from rfl, List.append_nil]
    exact h
  | call f is =>
    have htarget : (filling body ds).target? = .ok ⟨entryPoint, body⟩ := rfl
    by_cases hadmits : (filling body ds).Admits f (is.map (pick hs)).length
    · cases (call_admitted c level htarget hadmits).symm.trans hrun
      have hlast : [Line.call f is].filterMap Line.call? = [(f, (is.map (pick hs)).length)] := by
        rw [List.length_map]
        rfl
      rw [hlast]
      exact h.call hadmits
    · cases (call_not_admitted c level htarget hadmits).symm.trans hrun

theorem Tallied.play {os : List Operand} (hls : Tree.Ordered before.length ls)
    (h : Tallied (before.filterMap Line.call?) ds)
    (hrun : (((target c level).plain value).play ls (operands before)).runOn
      (filling (inlined [] before) ds) = (.ok os, m)) :
    Tallied ((before ++ ls).filterMap Line.call?) m.declarations := by
  induction ls generalizing before ds with
  | nil =>
    cases hrun
    rw [List.append_nil]
    exact h
  | cons l ls ih =>
    obtain ⟨o, m', hl, hrun⟩ := Step.runOn_bind_eq_ok hrun
    have hline := h.line c level value hl
    obtain ⟨rfl, declarations', rfl⟩ := line_eq_ok c level value hls.1 hl
    rw [← operands_concat] at hrun
    have hrest := ih (by rw [List.length_append]; exact hls.2) hline hrun
    rw [List.append_assoc, List.singleton_append] at hrest
    exact hrest

end Run

/-! ## Code can be made -/

/-- Calls of the same native name are calls of the same function, with as many arguments. -/
def OneCount (calls : List (String × Nat)) : Prop :=
  ∀ q ∈ calls, ∀ q' ∈ calls, calleeName q.1 = calleeName q'.1 → q = q'

theorem Tallied.arity (h : Tallied calls ds) (hcalls : OneCount calls) {q : String × Nat}
    (hq : q ∈ calls) {d : Declaration} (hd : d ∈ ds) (hname : d.name = calleeName q.1) :
    d.arity = q.2 := by
  obtain ⟨q', hq', rfl⟩ := h.made d hd
  rw [hcalls q hq q' hq' hname.symm]
  exact Int.toNat_natCast _

theorem Tallied.arity?_filling (h : Tallied calls ds) (hcalls : OneCount calls)
    {q : String × Nat} (hq : q ∈ calls) (body : List NativeInstr) :
    (filling body ds).arity? (calleeName q.1) = some q.2 := by
  rw [NativeModule.arity?_filling (h.others q hq)]
  cases hfind : ds.find? (·.name == calleeName q.1) with
  | none =>
    have hmem : calleeName q.1 ∈ ds.map (·.name) := h.mem_names_iff.2 (List.mem_map_of_mem hq)
    obtain ⟨d, hd, hname⟩ := List.mem_map.1 hmem
    exact absurd (beq_iff_eq.2 hname) (List.find?_eq_none.1 hfind d hd)
  | some d =>
    have hname : d.name = calleeName q.1 := by simpa using List.find?_some hfind
    exact congrArg some (h.arity hcalls hq (List.mem_of_find?_eq_some hfind) hname)

theorem Tallied.isValid {ls : List Line} (h : Tallied (ls.filterMap Line.call?) ds)
    (hls : Tree.Ordered 0 ls) (hcalls : OneCount (ls.filterMap Line.call?))
    (hintrinsic : ∀ q ∈ ls.filterMap Line.call?, calleeName q.1 ∈ intrinsics → q.2 = 1)
    {place : Nat} (hplace : place < ls.length) :
    (filling (unitBody ls place) ds).isValid = true := by
  rw [NativeModule.isValid, List.all_eq_true]
  intro g hg
  rcases List.mem_cons.1 hg with rfl | hg
  · change (!isReserved entryPoint && (filling (unitBody ls place) ds).isClosed [] _) = true
    have hclosed : (filling (unitBody ls place) ds).isClosed [] (unitBody ls place) = true := by
      refine (sound_inlined hls).isClosed (fun dest callee args hcall => ?_) ?_
      · obtain ⟨q, hq, rfl, hcount⟩ := call_mem_inlined hcall
        rw [← hcount]
        exact h.arity?_filling hcalls hq _
      · rw [List.append_nil]
        exact known_operandAt hplace
    rw [hclosed]
    rfl
  · obtain ⟨d, hd, rfl⟩ := List.mem_map.1 hg
    obtain ⟨q, hq, hmade⟩ := h.made d hd
    have hname : d.name = calleeName q.1 := by rw [hmade]; rfl
    change (!intrinsics.contains d.name || d.arity == 1) = true
    by_cases hmem : calleeName q.1 ∈ intrinsics
    · rw [h.arity hcalls hq hd hname, hintrinsic q hq hmem]
      exact Bool.or_true _
    · rw [hname, Bool.or_eq_true, Bool.not_eq_true']
      exact .inl (by simpa using hmem)

theorem finish_ne_invalidModule (c : Elementary) (level : Int) {m : NativeModule} {name : String}
    (h : m.isValid = true) : m.finish c level name ≠ .error (.backend .invalidModule) := by
  intro hfinish
  rw [finish, h] at hfinish
  cases hsymbol : m.externals.find? fun symbol => (Math.native? c symbol).isNone with
  | some symbol =>
    rw [hsymbol] at hfinish
    cases hfinish
  | none =>
    rw [hsymbol] at hfinish
    cases hascii : name.toList.all fun c => decide (c.toNat < 0x80) with
    | false =>
      rw [hascii] at hfinish
      cases hfinish
    | true =>
      rw [hascii] at hfinish
      cases hcode : m.functions.all (·.name != name) <;> rw [hcode] at hfinish <;> cases hfinish

/-! ## Well-formed modules -/

variable {e : Expr}

def unitText (lines : List String) : String :=
  "define double @\"calc_main\"()\n\x7b\nentry:\n"
    ++ String.join (lines.map fun l => "  " ++ l ++ "\n") ++ "\x7d\n"

theorem text_filling (body : List NativeInstr) (ds : List Declaration) :
    (filling body ds).text
      = "; ModuleID = \"calc\"\ntarget triple = \"unknown-unknown-unknown\"\n"
        ++ "target datalayout = \"\"\n\n"
        ++ "\n".intercalate (unitText (body.map (·.text)) :: ds.map (·.text)) := by
  have hname : "define double " ++ functionText entryPoint ++ "()\n\x7b\nentry:\n"
      = "define double @\"calc_main\"()\n\x7b\nentry:\n" := by decide +kernel
  have hunit : (⟨entryPoint, body⟩ : NativeFunction).text = unitText (body.map (·.text)) := by
    unfold NativeFunction.text unitText
    simp only [hname, List.map_map]
    rfl
  have hglobals : (filling body ds).globals.map (·.text)
      = unitText (body.map (·.text)) :: ds.map (·.text) := by
    have hfilling : (filling body ds).globals = .define ⟨entryPoint, body⟩ :: ds.map .declare := rfl
    rw [hfilling, List.map_cons, List.map_map]
    exact congrArg (· :: _) hunit
  rw [← hglobals]
  delta text
  rfl

/-- The body `code` with a return of `result` and the declarations beside it belong to the tree. -/
structure Renders (e : Expr) (code : List NativeInstr) (result : Operand)
    (declarations : List Declaration) : Prop where
  /-- One instruction for each operator and each call, operands before what is done with them. -/
  makes : List.Forall₂ Makes (e.visits.filter Visit.computes) code
  returns_last : code.any (·.isReturn) = false
  distinct : ((dests code).map ResultName.text).Nodup
  earlier : ∀ before i after, code ++ [.ret result] = before ++ i :: after →
    ∀ o ∈ i.operands, Known (dests before) o
  /-- One declaration for each callee, in the order in which they are first called. -/
  declared : declarations.map (·.name) = (code.filterMap NativeInstr.callee?).eraseDups
  declared_once : (declarations.map (·.name)).Nodup
  arities : ∀ dest callee args, .call dest callee args ∈ code → ∀ d ∈ declarations,
    d.name = callee → d.arity = args.length

theorem Tallied.renders {value : String → Float} (h : Tallied e.calls ds)
    (hcalls : OneCount e.calls) :
    Renders e (inlined [] (e.lines value 0)) (operandAt (e.lines value 0) e.inner) ds where
  makes := makes_lines value 0 e
  returns_last := (sound_inlined (Tree.ordered_lines value 0 e)).any_isReturn
  distinct := (dests_inlined_nodup _).map ResultName.text_injective
  earlier before i after hsplit := known_of_sound_return
    (sound_inlined (Tree.ordered_lines value 0 e)) (known_operandAt (Tree.inner_lt_lines value 0 e))
    hsplit
  declared := by
    rw [callees_inlined, Tree.lines_calls]
    exact h.names
  declared_once := h.nodup
  arities dest callee args hcall d hd hname := by
    obtain ⟨q, hq, rfl, hcount⟩ := call_mem_inlined hcall
    rw [Tree.lines_calls] at hq
    rw [← hcount]
    exact h.arity hcalls hq hd hname

/-- What compiling a tree leaves in an empty unit. -/
theorem tree_filled (c : Elementary) (level : Int) {r : Resolver} {v : Operand} {m : NativeModule}
    (h : Resolves r e) (hrun : (((target c level).operations r).tree e).runOn (filling [] [])
      = (.ok v, m)) :
    ∃ ds, v = operandAt (e.lines r.value 0) e.inner ∧
      m = filling (inlined [] (e.lines r.value 0)) ds ∧ Tallied e.calls ds := by
  have hordered : Tree.Ordered ([] : List Line).length (e.lines r.value 0) :=
    Tree.ordered_lines r.value 0 e
  rw [(target c level).operations_tree h,
    Operations.tree_eq_play ((target c level).plain_plain r.value) e (operands []),
    Step.runOn_map_eq_ok_iff] at hrun
  obtain ⟨os, hplay, rfl⟩ := hrun
  have htallied := Tallied.nil.play c level r.value hordered hplay
  obtain ⟨rfl, ds, rfl⟩ := play_eq_ok c level r.value hordered hplay
  rw [List.nil_append] at htallied
  refine ⟨ds, ?_, rfl, ?_⟩
  · rw [← pick_operands (Tree.inner_lt_lines r.value 0 e)]
    simp only [operands_length, List.length_nil, Nat.zero_add, List.nil_append]
  · rw [← Tree.lines_calls r.value 0]
    exact htallied

/-- A unit that comes to be finished is filled with the lines of its tree, and the outcome is that
    of finishing it. -/
theorem compile_filled (c : Elementary) (level : Int) {notices : NativeUnit → List LogEntry}
    {r : Resolver} {e : Expr} {outcome : Except Fault NativeUnit} {w : Work NativeModule Operand}
    (hrun : (Compiler.compile ⟨target c level, r, .balanced, notices⟩ e).runOn (.fresh .empty)
      = (outcome, w))
    (hphase : w.backend.phase = .returned ∨ w.backend.phase = .finalized) :
    Resolves r e ∧ ∃ ds, Tallied e.calls ds ∧
      w.backend.state = filling (unitBody (e.lines r.value 0) e.inner) ds ∧
      outcome = w.backend.state.finish c level entryPoint := by
  obtain ⟨s₁, s₂, s₃, v, hopening, htree, hret, hfinalize⟩ :=
    Compiler.compile_returned rfl e rfl hrun hphase
  cases (opening_runOn c level).symm.trans hopening
  have hresolves := (target c level).resolves_of_runOn htree
  obtain ⟨ds, rfl, rfl, hds⟩ := tree_filled c level hresolves htree
  set ls := e.lines r.value 0
  have hreturn := ret_runOn c level (m := filling (inlined [] ls) ds) rfl (operandAt ls e.inner)
  have hopen : (⟨entryPoint, inlined [] ls⟩ : NativeFunction).hasReturned = false :=
    (sound_inlined (Tree.ordered_lines _ 0 e)).any_isReturn
  rw [hopen, if_neg Bool.false_ne_true] at hreturn
  cases hreturn.symm.trans hret
  obtain ⟨rfl, hstate⟩ := Prod.mk.inj ((finalize_runOn c level _ entryPoint).symm.trans hfinalize)
  rw [← hstate]
  exact ⟨hresolves, ds, hds, rfl, rfl⟩

theorem callee_mem_unitBody {ls : List Line} {place : Nat} {i : NativeInstr}
    (hi : i ∈ unitBody ls place) {callee : String} (hcallee : callee ∈ i.callee?) :
    ∃ q ∈ ls.filterMap Line.call?, calleeName q.1 = callee := by
  cases i with
  | call dest callee' args =>
    obtain rfl := Option.some.inj hcallee
    rcases List.mem_append.1 hi with hi | hi
    · obtain ⟨q, hq, hname, -⟩ := call_mem_inlined hi
      exact ⟨q, hq, hname⟩
    · cases List.mem_singleton.1 hi
  | binary op dest left right => cases hcallee
  | ret value => cases hcallee

section Scopes

variable {s : Scope} (hnames : ∀ q ∈ s.functions, IsIdentifier q.1) (h : Resolves (.scope s) e)
include hnames h

theorem isIdentifier_of_mem_calls {q : String × Nat} (hq : q ∈ e.calls) : IsIdentifier q.1 :=
  hnames _ (Bindings.mem_of_get? ((Resolver.resolves_scope_iff.1 h).2 q hq))

/-- In a scope a name has one number of arguments. -/
theorem oneCount_of_resolves : OneCount e.calls := by
  intro q hq q' hq' heq
  have hname := calleeName_injOn (isIdentifier_of_mem_calls hnames h hq)
    (isIdentifier_of_mem_calls hnames h hq') heq
  have hcounts := (Resolver.resolves_scope_iff.1 h).2
  have hcount := hcounts q hq
  rw [hname, hcounts q' hq'] at hcount
  exact Prod.ext hname (Int.ofNat.inj (Option.some.inj hcount)).symm

theorem intrinsic_count
    (hunary : ∀ f ∈ ["sqrt", "fabs"], ∀ arity, s.functions.get? f = some arity → arity = 1) :
    ∀ q ∈ e.calls, calleeName q.1 ∈ intrinsics → q.2 = 1 := by
  intro q hq hmem
  have hidentifier := isIdentifier_of_mem_calls hnames h hq
  have hone := hunary q.1 (mem_of_calleeName_mem hidentifier.not_mem_intrinsics hmem) q.2
    ((Resolver.resolves_scope_iff.1 h).2 q hq)
  exact Int.ofNat.inj hone

theorem forall₂_lineText (place : Nat) :
    List.Forall₂ LineText (unitBody (e.lines (Resolver.scope s).value 0) place)
      ((unitBody (e.lines (Resolver.scope s).value 0) place).map NativeInstr.text) := by
  refine List.forall₂_map_right_iff.2 (List.forall₂_same.2 fun i hi => lineText ?_)
  intro callee hcallee
  obtain ⟨q, hq, rfl⟩ := callee_mem_unitBody hi hcallee
  rw [Tree.lines_calls] at hq
  exact isVerbatim_calleeName (isIdentifier_of_mem_calls hnames h hq)

theorem Tallied.texts_eq (hds : Tallied e.calls ds) : ds.map (·.text) = ds.map declareLine := by
  refine List.map_congr_left fun d hd => Declaration.text_eq ?_
  obtain ⟨q, hq, rfl⟩ := hds.made d hd
  exact isVerbatim_calleeName (isIdentifier_of_mem_calls hnames h hq)

end Scopes

/-- A tree whose unit comes to be finished makes a module that belongs to the tree, and that is
    valid. Its text has a line for each instruction and for each declaration. -/
theorem compiled_module (c : Elementary) (level : Int) (notices : NativeUnit → List LogEntry)
    {s : Scope} (hnames : ∀ q ∈ s.functions, IsIdentifier q.1)
    (hunary : ∀ function ∈ ["sqrt", "fabs"], ∀ arity, s.functions.get? function = some arity →
      arity = 1)
    (e : Expr) {outcome : Except Fault NativeUnit} {w : Work NativeModule Operand}
    (hrun : (Compiler.compile ⟨target c level, .scope s, .balanced, notices⟩ e).runOn
      (.fresh .empty) = (outcome, w))
    (hphase : w.backend.phase = .returned ∨ w.backend.phase = .finalized) :
    outcome ≠ .error (.backend .invalidModule) ∧ ∃ code result declarations lines,
      w.backend.state.globals
        = .define ⟨entryPoint, code ++ [.ret result]⟩ :: declarations.map .declare ∧
      w.backend.state.text
        = "; ModuleID = \"calc\"\ntarget triple = \"unknown-unknown-unknown\"\n"
          ++ "target datalayout = \"\"\n\n"
          ++ "\n".intercalate (unitText lines :: declarations.map declareLine) ∧
      List.Forall₂ LineText (code ++ [.ret result]) lines ∧
      Renders e code result declarations := by
  obtain ⟨hresolves, ds, hds, hmodule, rfl⟩ := compile_filled c level hrun hphase
  have hcalls := oneCount_of_resolves hnames hresolves
  have hone := intrinsic_count hnames hresolves hunary
  have htexts := forall₂_lineText hnames hresolves e.inner
  set ls := e.lines (Resolver.scope s).value 0
  have hlines : ls.filterMap Line.call? = e.calls := Tree.lines_calls _ 0 e
  have hvalid : w.backend.state.isValid = true := by
    rw [hmodule]
    rw [← hlines] at hds hcalls hone
    exact hds.isValid (Tree.ordered_lines _ 0 e) hcalls hone (Tree.inner_lt_lines _ 0 e)
  refine ⟨finish_ne_invalidModule c level hvalid, inlined [] ls, operandAt ls e.inner, ds,
    (unitBody ls e.inner).map NativeInstr.text, ?_, ?_, htexts, hds.renders hcalls⟩
  · rw [hmodule]
    rfl
  · rw [hmodule, text_filling, hds.texts_eq hnames hresolves]

/-- Two functions, both called twice, one of them an intrinsic. -/
theorem compiled_module_repeated_calls :
    let s : Scope := ⟨[("x", 1.0)], [("sqrt", 1), ("sin", 1)]⟩
    let e : Expr := .binary .add (.call "sqrt" [.name "x"])
      (.binary .add (.call "sin" [.name "x"]) (.call "sqrt" [.call "sin" [.number 2.0]]))
    let run := (Compiler.compile ⟨target .platform 0, .scope s, .balanced, fun _ => []⟩ e).runOn
      (.fresh .empty)
    run.2.backend.phase = .finalized ∧ ∃ code result declarations lines,
      run.2.backend.state.globals
        = .define ⟨entryPoint, code ++ [.ret result]⟩ :: declarations.map .declare ∧
      List.Forall₂ LineText (code ++ [.ret result]) lines ∧
      Renders e code result declarations := by
  intro s e run
  have hnames : ∀ q ∈ s.functions, IsIdentifier q.1 := by
    refine List.forall_mem_cons.2 ⟨?_, List.forall_mem_singleton.2 ?_⟩
    · exact ⟨'s', ['q', 'r', 't'], rfl, by decide, by simp [isNameChar, isNameStart]⟩
    · exact ⟨'s', ['i', 'n'], rfl, by decide, by simp [isNameChar, isNameStart]⟩
  have hunary : ∀ f ∈ ["sqrt", "fabs"], ∀ arity, s.functions.get? f = some arity → arity = 1 := by
    intro f _ arity hget
    have hmem := Bindings.mem_of_get? hget
    simp only [s, List.mem_cons, Prod.mk.injEq, List.not_mem_nil, or_false] at hmem
    omega
  have hphase : run.2.backend.phase = .finalized := by decide +kernel
  have hrun : run = (run.1, run.2) := Prod.mk.eta.symm
  obtain ⟨-, code, result, declarations, lines, hglobals, -, hlines, hrenders⟩ :=
    compiled_module .platform 0 (fun _ => []) hnames hunary e hrun (.inr hphase)
  exact ⟨hphase, code, result, declarations, lines, hglobals, hlines, hrenders⟩

end NativeModule

end ArithCompiler

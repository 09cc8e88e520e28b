import ArithCompiler.Proofs.Bytecode.Meaning
import ArithCompiler.Proofs.Compiler.Requests
import ArithCompiler.Proofs.Native.Code

set_option autoImplicit false

/-!
# Native code as lines

A line that is a constant stands inside the instructions that use it. Every other line has an
instruction of its own, whose result is named by what the line does and by how many lines before it
do the same. So native code of a tree is its lines again, under other names, and means what they mean
as soon as the functions that it calls mean what they stand for.
-/

namespace ArithCompiler

open Math (Elementary FunctionTable RunError)
open Resolver (Resolves)

def Line.stem? : Line → Option Stem
  | const _ => none
  | binary op _ _ => some (.operator op)
  | call _ _ => some .call

namespace NativeModule

def copies (ls : List Line) (stem : Stem) : Nat := ls.countP (·.stem? == some stem)

/-- What stands for a line in native code, after the lines before it. -/
def lineOperand (before : List Line) : Line → Operand
  | .const v => .const v
  | .binary op _ _ => .result ⟨.operator op, copies before (.operator op)⟩
  | .call _ _ => .result ⟨.call, copies before .call⟩

def operandAt (ls : List Line) (place : Nat) : Operand :=
  match ls[place]? with
  | some l => lineOperand (ls.take place) l
  | none => default

def calleeName (function : String) : String := (intrinsic? function).getD function

def lineInstr? (before : List Line) : Line → Option NativeInstr
  | .const _ => none
  | .binary op i j => some (.binary op ⟨.operator op, copies before (.operator op)⟩
      (operandAt before i) (operandAt before j))
  | .call f is =>
    some (.call ⟨.call, copies before .call⟩ (calleeName f) (is.map (operandAt before)))

def inlined : List Line → List Line → List NativeInstr
  | _, [] => []
  | before, l :: ls => (lineInstr? before l).toList ++ inlined (before ++ [l]) ls

def unitBody (ls : List Line) (result : Nat) : List NativeInstr :=
  inlined [] ls ++ [.ret (operandAt ls result)]

/-! ## Names of results -/

variable {ls before : List Line} {l : Line} {stem : Stem}

theorem operandAt_append {i : Nat} (h : i < ls.length) (more : List Line) :
    operandAt (ls ++ more) i = operandAt ls i := by
  rw [operandAt, List.getElem?_append_left h, List.take_append_of_le_length (Nat.le_of_lt h),
    operandAt]

theorem operandAt_concat (ls : List Line) (l : Line) :
    operandAt (ls ++ [l]) ls.length = lineOperand ls l := by
  rw [operandAt, List.getElem?_concat_length, List.take_left]

theorem copies_append (ls ls' : List Line) (stem : Stem) :
    copies (ls ++ ls') stem = copies ls stem + copies ls' stem := List.countP_append

theorem copies_concat (ls : List Line) (l : Line) (stem : Stem) :
    copies (ls ++ [l]) stem = copies ls stem + if l.stem? = some stem then 1 else 0 := by
  rw [copies_append]
  simp [copies, List.countP_cons]

theorem lineOperand_eq_result {name : ResultName} (h : lineOperand before l = .result name) :
    l.stem? = some name.stem ∧ name.copy = copies before name.stem := by
  cases l with
  | const v => cases h
  | binary op i j =>
    cases h
    exact ⟨rfl, rfl⟩
  | call f is =>
    cases h
    exact ⟨rfl, rfl⟩

/-- A result that is there is numbered below the next one with its stem. -/
theorem operandAt_copy_lt {i : Nat} (h : i < ls.length) {name : ResultName}
    (hname : operandAt ls i = .result name) : name.copy < copies ls name.stem := by
  rw [operandAt, List.getElem?_eq_getElem h] at hname
  obtain ⟨hstem, hcopy⟩ := lineOperand_eq_result hname
  have hsplit : ls = (ls.take i ++ [ls[i]]) ++ ls.drop (i + 1) := by
    rw [List.append_assoc, List.singleton_append, List.getElem_cons_drop, List.take_append_drop]
  have hone : copies (ls.take i ++ [ls[i]]) name.stem = name.copy + 1 := by
    rw [copies_concat, if_pos hstem, hcopy]
  calc name.copy < copies (ls.take i ++ [ls[i]]) name.stem := by omega
    _ ≤ copies ((ls.take i ++ [ls[i]]) ++ ls.drop (i + 1)) name.stem := by
      rw [copies_append _ (ls.drop (i + 1))]
      exact Nat.le_add_right _ _
    _ = copies ls name.stem := by rw [← hsplit]

theorem operandAt_injective {i j : Nat} (hi : i < ls.length) (hj : j < ls.length)
    {name : ResultName} (hiname : operandAt ls i = .result name)
    (hjname : operandAt ls j = .result name) : i = j := by
  -- The later of the two is numbered by the lines before it, the earlier one being among them.
  have hlt : ∀ i j, i < j → j < ls.length → operandAt ls i = .result name →
      operandAt ls j ≠ .result name := by
    intro i j hij hj hi hj'
    have hbefore : i < (ls.take j).length := by
      rw [List.length_take]
      omega
    have hi : operandAt (ls.take j) i = .result name := by
      rw [← hi, ← operandAt_append hbefore (ls.drop j), List.take_append_drop]
    have hcopy := operandAt_copy_lt hbefore hi
    rw [operandAt, List.getElem?_eq_getElem hj] at hj'
    have := (lineOperand_eq_result hj').2
    omega
  rcases Nat.lt_trichotomy i j with h | h | h
  · exact absurd hjname (hlt i j h hj hiname)
  · exact h
  · exact absurd hiname (hlt j i h hi hjname)

theorem inlined_append (before ls ls' : List Line) :
    inlined before (ls ++ ls') = inlined before ls ++ inlined (before ++ ls) ls' := by
  induction ls generalizing before with
  | nil => rw [List.nil_append, List.append_nil]; rfl
  | cons l ls ih =>
    rw [List.cons_append, inlined, ih, inlined, List.append_assoc, List.append_assoc,
      List.singleton_append]

theorem inlined_concat (ls : List Line) (l : Line) :
    inlined [] (ls ++ [l]) = inlined [] ls ++ (lineInstr? ls l).toList := by
  rw [inlined_append, List.nil_append, inlined, inlined, List.append_nil]

theorem countP_lineInstr? (before : List Line) (l : Line) (stem : Stem) :
    (lineInstr? before l).toList.countP (fun i => i.dest?.any (·.stem == stem))
      = if l.stem? = some stem then 1 else 0 := by
  cases l with
  | const v => rfl
  | binary op i j => simp [lineInstr?, NativeInstr.dest?, Line.stem?, List.countP_cons]
  | call f is => simp [lineInstr?, NativeInstr.dest?, Line.stem?, List.countP_cons]

theorem next_inlined (ls : List Line) (stem : Stem) :
    Filled.next (inlined [] ls) stem = ⟨stem, copies ls stem⟩ := by
  have hcount : (inlined [] ls).countP (fun i => i.dest?.any (·.stem == stem))
      = copies ls stem := by
    induction ls using List.reverseRecOn with
    | nil => rfl
    | append_singleton ls l ih =>
      rw [inlined_concat, List.countP_append, ih, countP_lineInstr?, copies_concat]
  rw [Filled.next, NativeFunction.freshName, hcount]

/-! ## Compilations that come to their end -/

def operands (ls : List Line) : List Operand := (List.range ls.length).map (operandAt ls)

theorem operands_length (ls : List Line) : (operands ls).length = ls.length := by
  rw [operands, List.length_map, List.length_range]

theorem pick_operands {i : Nat} (h : i < ls.length) : pick (operands ls) i = operandAt ls i := by
  simp [pick, operands, h]

theorem operands_concat (ls : List Line) (l : Line) :
    operands (ls ++ [l]) = operands ls ++ [lineOperand ls l] := by
  have hbefore : (List.range ls.length).map (operandAt (ls ++ [l])) = operands ls :=
    List.map_congr_left fun i hi => operandAt_append (List.mem_range.1 hi) [l]
  rw [operands, List.length_append, List.length_singleton, List.range_succ, List.map_append,
    hbefore, List.map_singleton, operandAt_concat]

variable (c : Elementary) (level : Int) {body : List NativeInstr}
  {declarations : List Declaration} {m : NativeModule}

theorem declare_eq_ok {function : String} {count : Nat} {declared : String × Nat}
    (h : (declare function count).runOn (filling body declarations) = (.ok declared, m)) :
    declared.1 = calleeName function ∧ ∃ declarations', m = filling body declarations' := by
  rw [declare, Step.runOn_bind_ok (Step.runOn_get _)] at h
  cases harity : (filling body declarations).arity? ((intrinsic? function).getD function) with
  | none =>
    simp only [harity] at h
    cases h
    exact ⟨rfl, _, rfl⟩
  | some arity =>
    simp only [harity] at h
    split at h
    · cases h
    · cases h
      exact ⟨rfl, _, rfl⟩

theorem call_eq_ok {function : String} {args : List Operand} {o : Operand}
    (h : ((target c level).call function args).runOn (filling body declarations) = (.ok o, m)) :
    o = .result (Filled.next body .call) ∧ ∃ declarations', m = filling
      (body ++ [.call (Filled.next body .call) (calleeName function) args]) declarations' := by
  obtain ⟨⟨callee, arity⟩, m', hdeclare, h⟩ := Step.runOn_bind_eq_ok h
  obtain ⟨rfl, declarations', rfl⟩ := declare_eq_ok hdeclare
  have hunit : ¬ (filling body declarations').unit.isNone := nofun
  rw [Step.runOn_bind_ok (Step.runOn_get _)] at h
  simp only [if_neg hunit] at h
  split at h
  · cases h
  · cases h
    exact ⟨rfl, declarations', rfl⟩

variable (value : String → Float)

theorem line_eq_ok {o : Operand} (hl : ∀ i ∈ l.operands, i < before.length)
    (h : (((target c level).plain value).line (operands before) l).runOn
      (filling (inlined [] before) declarations) = (.ok o, m)) :
    o = lineOperand before l ∧
      ∃ declarations', m = filling (inlined [] (before ++ [l])) declarations' := by
  rw [inlined_concat]
  cases l with
  | const v =>
    cases h
    exact ⟨rfl, declarations, by rw [lineInstr?, Option.toList_none, List.append_nil]⟩
  | binary op i j =>
    have hi : i < before.length := hl i (by simp [Line.operands])
    have hj : j < before.length := hl j (by simp [Line.operands])
    let code (dest : ResultName) : NativeInstr :=
      .binary op dest (pick (operands before) i) (pick (operands before) j)
    have hrun : (emit (.operator op) code).runOn (filling (inlined [] before) declarations)
        = (.ok o, m) := h
    rw [emit_runOn, next_inlined] at hrun
    cases hrun
    simp only [code, pick_operands hi, pick_operands hj]
    exact ⟨rfl, declarations, rfl⟩
  | call f is =>
    have hargs : is.map (pick (operands before)) = is.map (operandAt before) :=
      List.map_congr_left fun i hi => pick_operands (hl i hi)
    obtain ⟨rfl, declarations', rfl⟩ := call_eq_ok c level h
    rw [next_inlined, hargs]
    exact ⟨rfl, declarations', rfl⟩

theorem play_eq_ok {os : List Operand} (hls : Tree.Ordered before.length ls)
    (h : (((target c level).plain value).play ls (operands before)).runOn
      (filling (inlined [] before) declarations) = (.ok os, m)) :
    os = operands (before ++ ls) ∧
      ∃ declarations', m = filling (inlined [] (before ++ ls)) declarations' := by
  induction ls generalizing before declarations with
  | nil =>
    cases h
    rw [List.append_nil]
    exact ⟨rfl, declarations, rfl⟩
  | cons l ls ih =>
    obtain ⟨o, m', hl, h⟩ := Step.runOn_bind_eq_ok h
    obtain ⟨rfl, declarations', rfl⟩ := line_eq_ok c level value hls.1 hl
    rw [← operands_concat] at h
    have hrest := ih (by rw [List.length_append]; exact hls.2) h
    rw [List.append_assoc, List.singleton_append] at hrest
    exact hrest

theorem finish_eq_ok {name : String} {u : NativeUnit} (h : m.finish c level name = .ok u) :
    u = ⟨name, m, level⟩ := by
  rw [finish] at h
  cases hvalid : m.isValid with
  | false =>
    rw [hvalid] at h
    cases h
  | true =>
    rw [hvalid] at h
    cases hsymbol : m.externals.find? fun symbol => (Math.native? c symbol).isNone with
    | some symbol =>
      rw [hsymbol] at h
      cases h
    | none =>
      rw [hsymbol] at h
      cases hascii : name.toList.all fun c => decide (c.toNat < 0x80) with
      | false =>
        rw [hascii] at h
        cases h
      | true =>
        rw [hascii] at h
        cases hcode : m.functions.all (·.name != name) with
        | true =>
          rw [hcode] at h
          cases h
        | false =>
          rw [hcode] at h
          exact (Except.ok.inj h).symm

theorem closing_eq_ok {o : Operand} {u : NativeUnit}
    (h : ((target c level).closing o).runOn (filling body declarations) = (.ok u, m)) :
    u = ⟨entryPoint, filling (body ++ [.ret o]) declarations, level⟩ := by
  obtain ⟨_, m', hret, hfinalize⟩ := Step.runOn_bind_eq_ok h
  have htarget : (filling body declarations).target? = .ok ⟨entryPoint, body⟩ := rfl
  have hopen : m' = filling (body ++ [.ret o]) declarations := by
    by_cases hreturned : (⟨entryPoint, body⟩ : NativeFunction).hasReturned
    · simp only [target, Step.runOn_bind, Step.runOn_get, Step.runOn_lift, htarget,
        hreturned] at hret
      cases hret
    · simp only [target, Step.runOn_bind, Step.runOn_get, Step.runOn_lift, htarget,
        hreturned] at hret
      cases hret
      rfl
  subst hopen
  exact finish_eq_ok c level (congrArg Prod.fst hfinalize)

theorem unit_eq_ok {r : Resolver} {e : Expr} {u : NativeUnit}
    (h : ((target c level).unit r e).runOn .empty = (.ok u, m)) :
    u.name = entryPoint ∧
      ∃ declarations, u.code = filling (unitBody (e.lines r.value 0) e.inner) declarations := by
  rw [Target.unit, Step.runOn_bind_ok (opening_runOn c level)] at h
  obtain ⟨o, m', htree, h⟩ := Step.runOn_bind_eq_ok h
  rw [(target c level).operations_tree ((target c level).resolves_of_runOn htree),
    Operations.tree_eq_play ((target c level).plain_plain r.value) e (operands []),
    Step.runOn_map_eq_ok_iff] at htree
  obtain ⟨os, hplay, rfl⟩ := htree
  have hordered : Tree.Ordered ([] : List Line).length (e.lines r.value 0) :=
    Tree.ordered_lines r.value 0 e
  obtain ⟨rfl, declarations, rfl⟩ := play_eq_ok c level r.value hordered hplay
  rw [closing_eq_ok c level h]
  refine ⟨rfl, declarations, ?_⟩
  have hresult : pick (operands (e.lines r.value 0)) e.inner
      = operandAt (e.lines r.value 0) e.inner := by
    refine pick_operands ?_
    rw [Tree.lines_length]
    exact Nat.lt_succ_self _
  rw [unitBody, ← hresult]
  simp only [operands_length, List.length_nil, Nat.zero_add, List.nil_append]

end NativeModule

/-! ## What the instructions mean -/

def runBodyUnder (invoke : String → List Float → Except RunError Float) :
    Results → List NativeInstr → Except RunError Float
  | _, [] => .ok Number.notANumber
  | rs, .binary op dest left right :: rest =>
    runBodyUnder invoke ((dest, arithmetic op (rs.get left) (rs.get right)) :: rs) rest
  | rs, .call dest callee args :: rest => do
    let v ← invoke callee (args.map rs.get)
    runBodyUnder invoke ((dest, v) :: rs) rest
  | rs, .ret value :: _ => .ok (rs.get value)

namespace NativeModule

def symbolName (callee : String) : String :=
  if callee == "llvm.sqrt.f64" then "sqrt"
  else if callee == "llvm.fabs.f64" then "fabs"
  else callee

theorem symbolName_calleeName (function : String) :
    symbolName (calleeName function) = symbolName function := by
  unfold calleeName intrinsic?
  split <;> rfl

theorem symbolName_of_not_mem {function : String} (h : function ∉ intrinsics) :
    symbolName function = function := by
  rw [intrinsics, List.mem_cons, List.mem_singleton, not_or] at h
  rw [symbolName, if_neg (by simpa using h.1), if_neg (by simpa using h.2)]

theorem callNative_symbolName (c : Elementary) (callee : String) (args : List Float) :
    callNative c [] callee args = Math.symbol c (symbolName callee) args := by
  rw [callNative, ← symbolName, Math.symbol]
  cases Math.native? c (symbolName callee) <;> rfl

theorem runBodyUnder_symbol (c : Elementary) (rs : Results) (body : List NativeInstr) :
    runBodyUnder (fun callee args => .ok (Math.symbol c (symbolName callee) args)) rs body
      = .ok (runBody c [] rs body) := by
  induction body generalizing rs with
  | nil => rfl
  | cons i body ih =>
    cases i with
    | binary op dest left right => exact ih _
    | call dest callee args =>
      rw [runBody, callNative_symbolName]
      exact ih _
    | ret value => rfl

/-- The function is there, and if it has the name of an intrinsic it is what that stands for. -/
def Interprets (functions : FunctionTable) (function : String) : Prop :=
  (functions.get? function).isSome ∧
    (function ∈ intrinsics → functions.get? (symbolName function) = functions.get? function)

def invokeSymbol (functions : FunctionTable) (callee : String) (args : List Float) :
    Except RunError Float :=
  Program.invoke functions (symbolName callee) args

theorem Interprets.invoke {functions : FunctionTable} {function : String}
    (h : Interprets functions function) (args : List Float) :
    invokeSymbol functions (calleeName function) args
      = Program.invoke functions function args := by
  have hsame : functions.get? (symbolName function) = functions.get? function := by
    by_cases hmem : function ∈ intrinsics
    · exact h.2 hmem
    · rw [symbolName_of_not_mem hmem]
  obtain ⟨f, hf⟩ := Option.isSome_iff_exists.1 h.1
  rw [invokeSymbol, symbolName_calleeName, Program.invoke, Program.invoke, hsame, hf]

def Carried (rs : Results) (ls : List Line) (vs : List Float) : Prop :=
  vs.length = ls.length ∧ ∀ i < ls.length, rs.get (operandAt ls i) = pick vs i

variable {rs : Results} {before ls : List Line} {vs : List Float} {l : Line}

theorem Carried.concat {rs' : Results} (h : Carried rs before vs)
    (hkept : ∀ i < before.length, rs'.get (operandAt before i) = rs.get (operandAt before i))
    {v : Float} (hv : rs'.get (lineOperand before l) = v) :
    Carried rs' (before ++ [l]) (vs ++ [v]) := by
  have hlength : (vs ++ [v]).length = (before ++ [l]).length := by
    rw [List.length_append, List.length_append, h.1]
    rfl
  refine ⟨hlength, ?_⟩
  rw [← hlength]
  refine forall_place_concat (P := fun i x => rs'.get (operandAt (before ++ [l]) i) = x)
    (fun i hi => ?_) ?_
  · rw [h.1] at hi
    rw [operandAt_append hi, hkept i hi, h.2 i hi]
  · rw [h.1, operandAt_concat, hv]

def withLine (rs : Results) (before : List Line) (l : Line) (v : Float) : Results :=
  match lineOperand before l with
  | .const _ => rs
  | .result name => (name, v) :: rs

/-- The next result with a stem is not among those that stand for lines. -/
theorem Carried.result (h : Carried rs before vs) {name : ResultName}
    (hl : lineOperand before l = .result name) (v : Float) :
    Carried ((name, v) :: rs) (before ++ [l]) (vs ++ [v]) := by
  refine h.concat (fun i hi => ?_) ?_
  · cases ho : operandAt before i with
    | const w => rfl
    | result name' =>
      have hcopy := operandAt_copy_lt hi ho
      have hne : (name' == name) = false := by
        rw [beq_eq_false_iff_ne]
        rintro rfl
        rw [(lineOperand_eq_result hl).2] at hcopy
        exact Nat.lt_irrefl _ hcopy
      simp only [Results.get, List.lookup_cons, hne]
  · rw [hl, Results.get, List.lookup_cons_self]
    rfl

theorem arithmetic_eq_apply (op : Operator) (a b : Float) : arithmetic op a b = op.apply a b := by
  cases op with
  | add | subtract | multiply => rfl
  | divide => exact (Math.quotient_eq a b).symm

variable (value : String → Float) {functions : FunctionTable}

theorem Carried.line (h : Carried rs before vs) {v : Float}
    (hv : (evaluation value functions).line vs l = .ok v) :
    Carried (withLine rs before l v) (before ++ [l]) (vs ++ [v]) := by
  cases l with
  | const w =>
    cases hv
    exact h.concat (fun _ _ => rfl) rfl
  | binary op i j => exact h.result rfl v
  | call f is => exact h.result rfl v

theorem runBodyUnder_line (h : Carried rs before vs) (hl : ∀ i ∈ l.operands, i < before.length)
    (hcall : ∀ q, l.call? = some q → Interprets functions q.1) (rest : List NativeInstr) :
    runBodyUnder (invokeSymbol functions) rs ((lineInstr? before l).toList ++ rest)
      = (evaluation value functions).line vs l >>= fun v =>
          runBodyUnder (invokeSymbol functions) (withLine rs before l v) rest := by
  cases l with
  | const w => rfl
  | binary op i j =>
    have hi : i < before.length := hl i (by simp [Line.operands])
    have hj : j < before.length := hl j (by simp [Line.operands])
    change runBodyUnder _ ((_, arithmetic op _ _) :: rs) rest = _
    rw [h.2 i hi, h.2 j hj, arithmetic_eq_apply]
    rfl
  | call f is =>
    have hargs : (is.map (operandAt before)).map rs.get = is.map (pick vs) := by
      rw [List.map_map]
      exact List.map_congr_left fun i hi => h.2 i (hl i hi)
    change (invokeSymbol functions (calleeName f) ((is.map (operandAt before)).map rs.get)
      >>= fun v => runBodyUnder (invokeSymbol functions) (_ :: rs) rest) = _
    rw [hargs, (hcall _ rfl).invoke]
    rfl

theorem runBodyUnder_inlined (h : Carried rs before vs) (hls : Tree.Ordered before.length ls)
    (hcalls : ∀ q ∈ ls.filterMap Line.call?, Interprets functions q.1) {result : Nat}
    (hresult : result < (before ++ ls).length) :
    runBodyUnder (invokeSymbol functions) rs
        (inlined before ls ++ [.ret (operandAt (before ++ ls) result)])
      = (pick · result) <$> (evaluation value functions).play ls vs := by
  induction ls generalizing before rs vs with
  | nil =>
    rw [List.append_nil] at hresult ⊢
    exact congrArg Except.ok (h.2 result hresult)
  | cons l ls ih =>
    obtain ⟨hcall, hrest⟩ := Line.forall_calls_cons.1 hcalls
    have hplace : before ++ l :: ls = (before ++ [l]) ++ ls := by
      rw [List.append_assoc, List.singleton_append]
    rw [hplace] at hresult ⊢
    rw [inlined, List.append_assoc, runBodyUnder_line value h hls.1 hcall, Operations.play,
      map_bind]
    cases hv : (evaluation value functions).line vs l with
    | error e => rfl
    | ok v =>
      exact ih (h.line value hv) (by rw [List.length_append]; exact hls.2) hrest hresult

/-- Running the body of a tree is evaluating the tree. -/
theorem runBodyUnder_unitBody {r : Resolver} {e : Expr}
    (h : ∀ q ∈ e.calls, Interprets functions q.1) :
    runBodyUnder (invokeSymbol functions) [] (unitBody (e.lines r.value 0) e.inner)
      = (evaluation r.value functions).tree e := by
  have hcalls : ∀ q ∈ (e.lines r.value 0).filterMap Line.call?, Interprets functions q.1 := by
    intro q hq
    rw [Tree.lines_calls] at hq
    exact h q hq
  have hresult : e.inner < ([] ++ e.lines r.value 0).length := by
    rw [List.nil_append, Tree.lines_length]
    exact Nat.lt_succ_self _
  have hnone : Carried [] [] [] := ⟨rfl, nofun⟩
  have hrun := runBodyUnder_inlined r.value hnone (Tree.ordered_lines r.value 0 e) hcalls hresult
  rw [Operations.tree_eq_play (evaluation_plain r.value functions) e [], List.length_nil,
    Nat.zero_add, ← hrun]
  rfl

end NativeModule

theorem NativeUnit.run_of_functions (c : Elementary) {u : NativeUnit} {body : List NativeInstr}
    (h : u.code.functions = [⟨u.name, body⟩]) : u.run c = runBody c [] [] body := by
  rw [run, NativeModule.unitValues, h]
  change (List.lookup u.name [(u.name, runBody c [] [] body)]).getD _ = _
  rw [List.lookup_cons_self, Option.getD_some]

end ArithCompiler

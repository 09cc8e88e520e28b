import ArithCompiler.Proofs.Backend.Lifecycle
import ArithCompiler.Proofs.Bytecode.Safety

set_option autoImplicit false

/-!
# Finished units

Whoever drives the backend, its code is that of lines whose operands stand before them, one line for
each register in use. A return closes it, and once the unit is finished nothing is due any more. So
every finished unit is a well-formed program and stays what it is.
-/

namespace ArithCompiler

open Math (FunctionTable RunError)

theorem Line.instr_takes (dest : Nat) (l : Line) :
    (l.instr dest).opcode.Takes (l.instr dest).operands.length := by
  cases l with
  | const | binary => rfl
  | call => trivial

namespace Bytecode

/-! ## Code of lines -/

structure Runnable (functions : FunctionTable) (ls : List Line) : Prop where
  ordered : Tree.Ordered 0 ls
  covers : Covers functions ls

theorem Runnable.concat {functions : FunctionTable} {ls : List Line} (h : Runnable functions ls)
    {l : Line} (hoperands : ∀ i ∈ l.operands, i < ls.length)
    (hcall : ∀ q, l.call? = some q → (functions.get? q.1).isSome) :
    Runnable functions (ls ++ [l]) := by
  refine ⟨Tree.ordered_append h.ordered ⟨?_, trivial⟩, ?_⟩
  · rw [Nat.zero_add]
    exact hoperands
  · rw [Covers, List.filterMap_append, List.forall_mem_append]
    exact ⟨h.covers, Line.forall_calls_cons.2 ⟨hcall, nofun⟩⟩

section Returned

variable {ls : List Line} {result : Nat}

/-- Each place is that of a line, or the last one. -/
theorem returned_place {k : Nat} {i : Instr}
    (h : (instrs 0 ls ++ [Instr.ret result])[k]? = some i) :
    (∃ l, ls[k]? = some l ∧ k < ls.length ∧ i = l.instr k) ∨
      k = ls.length ∧ i = .ret result := by
  by_cases hk : k < ls.length
  · rw [List.getElem?_append_left (by rwa [instrs_length]), instrs_getElem?, Nat.zero_add] at h
    obtain ⟨l, hl, rfl⟩ := Option.map_eq_some_iff.1 h
    exact .inl ⟨l, hl, hk, rfl⟩
  · obtain ⟨hlt, -⟩ := List.getElem?_eq_some_iff.1 h
    rw [List.length_append, instrs_length, List.length_singleton] at hlt
    obtain rfl : k = ls.length := by omega
    rw [List.getElem?_append_right (Nat.le_of_eq (instrs_length 0 ls)), instrs_length,
      Nat.sub_self] at h
    cases h
    exact .inr ⟨rfl, rfl⟩

theorem mem_returned {i : Instr} (h : i ∈ instrs 0 ls ++ [Instr.ret result]) :
    (∃ k l, l ∈ ls ∧ i = l.instr k) ∨ i = .ret result := by
  obtain ⟨k, hk⟩ := List.mem_iff_getElem?.1 h
  rcases returned_place hk with ⟨l, hl, -, rfl⟩ | ⟨-, rfl⟩
  · exact .inl ⟨k, l, List.mem_of_getElem? hl, rfl⟩
  · exact .inr rfl

theorem Runnable.wellFormed {functions : FunctionTable} (h : Runnable functions ls)
    (name : String) (hresult : result < ls.length) :
    Program.WellFormed ⟨name, instrs 0 ls ++ [.ret result], functions⟩ := by
  have hlength : (instrs 0 ls ++ [Instr.ret result]).length = ls.length + 1 := by
    rw [List.length_append, instrs_length]
    rfl
  refine ⟨by simp, fun k i hi => ?_, fun k i hi hret => ?_, fun k i hi r hr => ?_, fun i hi => ?_,
    fun i hi hcall => ?_⟩
  · change i.opcode = .ret ↔ k + 1 = (instrs 0 ls ++ [Instr.ret result]).length
    rw [hlength]
    rcases returned_place hi with ⟨l, -, hk, rfl⟩ | ⟨rfl, rfl⟩
    · exact ⟨fun h => absurd h (l.instr_opcode_ne_ret k), fun h => by omega⟩
    · exact ⟨fun _ => rfl, fun _ => rfl⟩
  · rcases returned_place hi with ⟨l, -, -, rfl⟩ | ⟨rfl, rfl⟩
    · exact l.instr_dest k
    · exact absurd rfl hret
  · rcases returned_place hi with ⟨l, hl, -, rfl⟩ | ⟨rfl, rfl⟩
    · rw [Line.instr_operands] at hr
      obtain ⟨j, hj, rfl⟩ := List.mem_map.1 hr
      have := Tree.operands_lt h.ordered hl j hj
      exact ⟨Int.natCast_nonneg j, Int.ofNat_lt.2 (by omega)⟩
    · obtain rfl := List.mem_singleton.1 hr
      omega
  · rcases mem_returned hi with ⟨k, l, -, rfl⟩ | rfl
    · exact l.instr_takes k
    · rfl
  · rcases mem_returned hi with ⟨k, l, hl, rfl⟩ | rfl
    · exact h.covers _ (List.mem_filterMap.2 ⟨l, hl, Line.call?_of_opcode hcall⟩)
    · cases hcall

end Returned

/-! ## What one request does to the code -/

variable {b : Bytecode}

theorem register_eq_ok {h : Handle} {r : Int} (hr : b.register h = .ok r) :
    ∃ i < b.used, r = (i : Int) := by
  by_cases hb : b.InUse h
  · obtain ⟨i, hi, rfl⟩ := hb
    rw [register_handle hi] at hr
    cases hr
    exact ⟨i, hi, rfl⟩
  · rw [register_of_not_inUse hb] at hr
    cases hr

theorem mapM_register_eq_ok {hs : List Handle} {rs : List Int} (h : hs.mapM b.register = .ok rs) :
    ∃ is : List Nat, (∀ i ∈ is, i < b.used) ∧ rs = is.map Int.ofNat := by
  induction hs generalizing rs with
  | nil =>
    cases h
    exact ⟨[], nofun, rfl⟩
  | cons h' hs ih =>
    rw [List.mapM_cons] at h
    obtain ⟨r, hr, h⟩ := Except.bind_eq_ok_iff.1 h
    obtain ⟨rs', hrs, h⟩ := Except.bind_eq_ok_iff.1 h
    cases h
    obtain ⟨i, hi, rfl⟩ := register_eq_ok hr
    obtain ⟨is, his, rfl⟩ := ih hrs
    exact ⟨i :: is, List.forall_mem_cons.2 ⟨hi, his⟩, rfl⟩

def Grows (b b' : Bytecode) : Prop :=
  ∃ l : Line, (∀ i ∈ l.operands, i < b.used) ∧
    (∀ q, l.call? = some q → (b.functions.get? q.1).isSome) ∧
    b' = { b with code := b.code ++ [l.instr b.used], used := b.used + 1 }

theorem serve_operation {r : Request Handle} (hr : r.IsOperation) {name : String}
    {reply : Reply Handle BytecodeUnit} {b' : Bytecode}
    (h : (target.serve name r).runOn b = (.ok reply, b')) : b.Grows b' := by
  cases r with
  | const v =>
    cases h
    exact ⟨.const v, nofun, nofun, rfl⟩
  | binary op left right =>
    simp only [Target.serve, target, Step.runOn_bind, Step.runOn_get, Step.runOn_lift] at h
    cases hl : b.register left with
    | error f => simp [hl] at h
    | ok l =>
      cases hr : b.register right with
      | error f => simp [hl, hr] at h
      | ok r =>
        obtain ⟨i, hi, rfl⟩ := register_eq_ok hl
        obtain ⟨j, hj, rfl⟩ := register_eq_ok hr
        simp only [hl, hr] at h
        cases h
        refine ⟨.binary op i j, fun k hk => ?_, fun q hq => ?_, rfl⟩
        · simp only [Line.operands, List.mem_cons, List.not_mem_nil, or_false] at hk
          rcases hk with rfl | rfl
          · exact hi
          · exact hj
        · cases hq
  | call f args =>
    by_cases hf : (b.functions.get? f).isNone
    · simp only [Target.serve, target, Step.runOn_bind, Step.runOn_get, if_pos hf,
        Step.runOn_throw] at h
      cases h
    · simp only [Target.serve, target, Step.runOn_bind, Step.runOn_get, if_neg hf,
        Step.runOn_lift] at h
      cases hargs : args.mapM b.register with
      | error f => simp [hargs] at h
      | ok rs =>
        obtain ⟨is, his, rfl⟩ := mapM_register_eq_ok hargs
        simp only [hargs] at h
        cases h
        refine ⟨.call f is, his, fun q hq => ?_, rfl⟩
        cases hq
        rwa [Bool.not_eq_true, Option.isNone_eq_false_iff] at hf
  | create | position | ret | finalize => exact hr.elim

theorem serve_ret {v : Handle} {name : String} {reply : Reply Handle BytecodeUnit} {b' : Bytecode}
    (h : (target.serve name (.ret v)).runOn b = (.ok reply, b')) :
    ∃ i < b.used, b' = { b with code := b.code ++ [.ret i] } := by
  simp only [Target.serve, target, Step.runOn_bind, Step.runOn_get, Step.runOn_lift] at h
  cases hv : b.register v with
  | error f => simp [hv] at h
  | ok r =>
    obtain ⟨i, hi, rfl⟩ := register_eq_ok hv
    simp only [hv] at h
    cases h
    exact ⟨i, hi, rfl⟩

/-! ## What every driver keeps -/

/-- The code is that of lines that can be run, with a return behind them once there is one. -/
def Shaped (functions : FunctionTable) (b : Backend Bytecode) : Prop :=
  b.state.functions = functions ∧ ∃ ls, Runnable functions ls ∧
    match b.phase with
    | .created | .body => b.state.code = instrs 0 ls ∧ b.state.used = ls.length
    | .returned | .finalized => ∃ i < ls.length, b.state.code = instrs 0 ls ++ [.ret i]
    | .idle | .other _ => True

theorem shaped_fresh (functions : FunctionTable) :
    Shaped functions (.fresh (.empty functions)) :=
  ⟨rfl, [], ⟨trivial, nofun⟩, trivial⟩

theorem answer_shaped {functions : FunctionTable} {b b' : Backend Bytecode} {r : Request Handle}
    {outcome : Except Fault (Reply Handle BytecodeUnit)} (hb : Shaped functions b)
    (h : (Backend.answer target r).runOn b = (outcome, b')) : Shaped functions b' := by
  rcases answer_granted_or_unchanged b r with
    ⟨⟨reply, b'', hok⟩, ⟨phase, hphase⟩, -⟩ | ⟨⟨e, herror⟩, -⟩
  · cases hok.symm.trans h
    rw [Backend.answer_due target rfl hphase] at hok
    obtain ⟨p, name, s⟩ := b
    obtain ⟨hfunctions, ls, hls, hshape⟩ := hb
    cases hserve : (target.serve name r).runOn s with
    | mk served s' =>
      rw [hserve] at hok
      cases served with
      | error f => cases hok
      | ok reply' =>
        cases hok
        cases hphase with
        | create unit =>
          cases hserve
          exact ⟨hfunctions, [], ⟨trivial, nofun⟩, rfl, rfl⟩
        | position =>
          cases hserve
          exact ⟨hfunctions, ls, hls, hshape⟩
        | operation hr =>
          obtain ⟨l, hoperands, hcall, rfl⟩ := serve_operation hr hserve
          obtain ⟨hcode, hused⟩ := hshape
          rw [hfunctions] at hcall
          rw [hused] at hoperands
          refine ⟨hfunctions, ls ++ [l], hls.concat hoperands hcall, ?_, ?_⟩
          · change s.code ++ [l.instr s.used] = _
            rw [instrs_append, hcode, hused, Nat.zero_add]
            rfl
          · change s.used + 1 = _
            rw [hused, List.length_append, List.length_singleton]
        | ret v =>
          obtain ⟨i, hi, rfl⟩ := serve_ret hserve
          obtain ⟨hcode, hused⟩ := hshape
          exact ⟨hfunctions, ls, hls, i, hused ▸ hi, congrArg (· ++ _) hcode⟩
        | finalize =>
          cases hserve
          exact ⟨hfunctions, ls, hls, hshape⟩
  · cases herror.symm.trans h
    exact hb

/-! ## Finished units -/

theorem mem_exchanges_shaped {functions : FunctionTable} {b : Backend Bytecode}
    {rs : List (Request Handle)} (hb : Shaped functions b)
    {x : Backend.Exchange Bytecode Handle BytecodeUnit}
    (hx : x ∈ Backend.exchanges target b rs) : Shaped functions x.before := by
  induction rs generalizing b with
  | nil => simp [Backend.exchanges] at hx
  | cons r rs ih =>
    rw [Backend.exchanges] at hx
    rcases List.mem_cons.1 hx with rfl | hx
    · exact hb
    · exact ih (answer_shaped hb rfl) hx

theorem finalize_program {functions : FunctionTable} {b b' : Backend Bytecode} {u : BytecodeUnit}
    (hb : Shaped functions b)
    (h : (Backend.answer target .finalize).runOn b = (.ok (.unit u), b')) :
    b'.phase = .finalized ∧ ∃ ls i, Runnable functions ls ∧ i < ls.length ∧
      b'.state.program u = ⟨b.unitName, instrs 0 ls ++ [.ret (i : Nat)], functions⟩ := by
  obtain ⟨p, name, s⟩ := b
  have hadvances := Backend.answer_eq_ok target h
  generalize hphase : b'.phase = phase at hadvances
  cases hadvances with
  | finalize =>
    rw [Backend.answer_due target rfl .finalize] at h
    cases h
    obtain ⟨hfunctions, ls, hls, i, hi, hcode⟩ := hb
    refine ⟨rfl, ls, i, hls, hi, ?_⟩
    change s.program ⟨name, s.earlier.length⟩ = _
    simp only [program, codeAt, List.getElem?_concat_length, Option.getD_some]
    rw [show s.code = _ from hcode, show s.functions = _ from hfunctions]
  | operation hr => exact hr.elim

theorem finalize_shaped {functions : FunctionTable} {b b' : Backend Bytecode} {u : BytecodeUnit}
    (hb : Shaped functions b)
    (h : (Backend.answer target .finalize).runOn b = (.ok (.unit u), b')) :
    b'.phase = .finalized ∧ (b'.state.program u).functions = functions ∧
      (b'.state.program u).WellFormed := by
  obtain ⟨hphase, ls, i, hls, hi, hprogram⟩ := finalize_program hb h
  rw [hprogram]
  exact ⟨hphase, rfl, hls.wellFormed _ hi⟩

end Bytecode

namespace Backend

/-- A unit of bytecode that was finished is a well-formed program over the functions of its backend,
    whoever drove the backend, and no request after it changes it. Its run comes only to instructions
    that find all they use, and can only fail where a function fails that it calls. -/
theorem finished_wellFormed {functions : FunctionTable} {rs : List (Request Handle)}
    {before later : List (Exchange Bytecode Handle BytecodeUnit)}
    {x : Exchange Bytecode Handle BytecodeUnit} {u : BytecodeUnit}
    (hrun : exchanges Bytecode.target (.fresh (.empty functions)) rs = before ++ x :: later)
    (hunit : x.outcome = .ok (.unit u)) :
    let p := x.after.state.program u
    p.functions = functions ∧ p.WellFormed ∧
      (∀ y ∈ later, y.after.state.program u = p) ∧
      (∀ code regs, p.Reaches code regs →
        ∃ i rest, code = i :: rest ∧ i.Ready p.functions regs) ∧
      ∀ e, p.run = .error e → ∃ i ∈ p.code, ∃ f args,
        i.opcode = .call ∧ p.functions.get? i.callee = some f ∧ f args = .error e := by
  intro p
  have hx : x ∈ exchanges Bytecode.target (.fresh (.empty functions)) rs := by
    rw [hrun]
    exact List.mem_append_right _ List.mem_cons_self
  have hshaped := Bytecode.mem_exchanges_shaped (Bytecode.shaped_fresh functions) hx
  have hanswer := mem_exchanges hx
  rw [hunit] at hanswer
  rw [answer_unit _ hanswer] at hanswer
  obtain ⟨hphase, hfunctions, hwell⟩ := Bytecode.finalize_shaped hshaped hanswer
  obtain ⟨rs', hlater⟩ := exchanges_eq_append _ hrun
  refine ⟨hfunctions, hwell, fun y hy => ?_, fun code regs => hwell.ready,
    fun e => hwell.error_of_run⟩
  rw [hlater] at hy
  rw [mem_exchanges_finalized _ hphase hy]

/-- An operand that nothing made and a request after the end are refused; the unit between them is
    well formed all the same. -/
theorem finished_wellFormed_despite_refusals :
    let functions : FunctionTable := [Math.unary "twice" fun x => x + x]
    let b : Bytecode := ⟨functions, [[]], [.const 0 2.0, .call 1 "twice" [0], .ret 1], 2⟩
    let u : BytecodeUnit := ⟨"unit", 1⟩
    (∃ before later, exchanges Bytecode.target (.fresh (.empty functions))
        [.create "unit" .entry, .position, .const 2.0, .binary .add (.register 0) (.register 1),
          .call "twice" [.register 0], .ret (.register 1), .finalize, .const 1.0]
      = before ++ ⟨.finalize, ⟨.returned, "unit", b⟩, .ok (.unit u), ⟨.finalized, "unit", b⟩⟩ ::
          later) ∧ (b.program u).WellFormed := by
  intro functions b u
  let begun : Bytecode := ⟨functions, [[]], [], 0⟩
  let filled : Bytecode := ⟨functions, [[]], [.const 0 2.0], 1⟩
  let called : Bytecode := ⟨functions, [[]], [.const 0 2.0, .call 1 "twice" [0]], 2⟩
  have hcreate : (answer Bytecode.target (.create "unit" .entry)).runOn
      (.fresh (.empty functions)) = (.ok .done, ⟨.created, "unit", begun⟩) := rfl
  have hposition : (answer Bytecode.target .position).runOn ⟨.created, "unit", begun⟩
      = (.ok .done, ⟨.body, "unit", begun⟩) := rfl
  have hconst : (answer Bytecode.target (.const 2.0)).runOn ⟨.body, "unit", begun⟩
      = (.ok (.value (.register 0)), ⟨.body, "unit", filled⟩) := rfl
  have hbinary : (answer Bytecode.target (.binary .add (.register 0) (.register 1))).runOn
      ⟨.body, "unit", filled⟩
        = (.error (.backend (.foreignHandle (.register 1))), ⟨.body, "unit", filled⟩) := rfl
  have hcall : (answer Bytecode.target (.call "twice" [.register 0])).runOn ⟨.body, "unit", filled⟩
      = (.ok (.value (.register 1)), ⟨.body, "unit", called⟩) := rfl
  have hret : (answer Bytecode.target (.ret (.register 1))).runOn ⟨.body, "unit", called⟩
      = (.ok .done, ⟨.returned, "unit", b⟩) := rfl
  have hfinalize : (answer Bytecode.target .finalize).runOn ⟨.returned, "unit", b⟩
      = (.ok (.unit u), ⟨.finalized, "unit", b⟩) := rfl
  have hrun : ∃ before later, exchanges Bytecode.target (.fresh (.empty functions))
        [.create "unit" .entry, .position, .const 2.0, .binary .add (.register 0) (.register 1),
          .call "twice" [.register 0], .ret (.register 1), .finalize, .const 1.0]
      = before ++ ⟨.finalize, ⟨.returned, "unit", b⟩, .ok (.unit u), ⟨.finalized, "unit", b⟩⟩ ::
          later := by
    rw [exchanges_cons _ hcreate, exchanges_cons _ hposition, exchanges_cons _ hconst,
      exchanges_cons _ hbinary, exchanges_cons _ hcall, exchanges_cons _ hret,
      exchanges_cons _ hfinalize]
    exact ⟨[_, _, _, _, _, _], _, rfl⟩
  obtain ⟨before, later, hrun⟩ := hrun
  exact ⟨⟨before, later, hrun⟩, (finished_wellFormed hrun rfl).2.1⟩

end Backend

end ArithCompiler

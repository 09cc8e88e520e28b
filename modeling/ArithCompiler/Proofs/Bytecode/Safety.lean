import ArithCompiler.Backend.Bytecode
import Mathlib.Data.List.Basic

set_option autoImplicit false

/-!
# Programs that run to their return

In a well-formed program each instruction but the last writes the register of its place, reads only
registers of places before it, and the last one returns. Whatever the functions give, such a program
comes from instruction to instruction to its return. The only faults it can have are those of the
functions it calls.
-/

namespace ArithCompiler

open Math (FunctionTable RunError)

def Opcode.Takes : Opcode → Nat → Prop
  | const, n => n = 0
  | binary _, n => n = 2
  | call, _ => True
  | ret, n => n = 1
  | other _, _ => False

namespace Program

def compute (functions : FunctionTable) (i : Instr) (regs : Registers) : Except RunError Float :=
  match i.opcode with
  | .const => .ok i.value
  | .binary op => do
    let a ← regs.read (← operand i 0)
    let b ← regs.read (← operand i 1)
    return op.apply a b
  | .call => do
    let args ← i.operands.mapM regs.read
    invoke functions i.callee args
  | .ret => do regs.read (← operand i 0)
  | .other opcode => .error (.unknownOpcode opcode)

theorem exec_cons (unit : String) (functions : FunctionTable) (i : Instr) (rest : List Instr)
    (regs : Registers) : exec unit functions (i :: rest) regs = (do
      let v ← compute functions i regs
      if i.opcode = .ret then return v else exec unit functions rest (regs.write i.dest v)) := by
  rw [exec, compute]
  cases h : i.opcode with
  | const => rfl
  | binary op => simp
  | call => simp
  | ret => simp
  | other opcode => rfl

/-- The run of the program comes to where this code is left, with these registers. -/
inductive Reaches (p : Program) : List Instr → Registers → Prop
  | start : Reaches p p.code []
  | next {i : Instr} {rest : List Instr} {regs : Registers} {v : Float} :
      Reaches p (i :: rest) regs → i.opcode ≠ .ret → compute p.functions i regs = .ok v →
      Reaches p rest (regs.write i.dest v)

end Program

structure Instr.Ready (i : Instr) (functions : FunctionTable) (regs : Registers) : Prop where
  takes : i.opcode.Takes i.operands.length
  reads : ∀ r ∈ i.operands, ∃ v, regs.read r = .ok v
  calls : i.opcode = .call → (functions.get? i.callee).isSome

/-- Straight-line code that writes each register once, before it is read, and returns at its end
    only. -/
structure Program.WellFormed (p : Program) : Prop where
  nonempty : p.code ≠ []
  returns : ∀ (k : Nat) i, p.code[k]? = some i → (i.opcode = .ret ↔ k + 1 = p.code.length)
  writes : ∀ (k : Nat) i, p.code[k]? = some i → i.opcode ≠ .ret → i.dest = some (k : Int)
  reads : ∀ (k : Nat) i, p.code[k]? = some i → ∀ r ∈ i.operands, 0 ≤ r ∧ r < k
  takes : ∀ i ∈ p.code, i.opcode.Takes i.operands.length
  calls : ∀ i ∈ p.code, i.opcode = .call → (p.functions.get? i.callee).isSome

namespace Registers

theorem mapM_read {regs : Registers} {rs : List Int} (h : ∀ r ∈ rs, ∃ v, regs.read r = .ok v) :
    ∃ vs, rs.mapM regs.read = .ok vs ∧ vs.length = rs.length := by
  induction rs with
  | nil => exact ⟨[], rfl, rfl⟩
  | cons r rs ih =>
    obtain ⟨v, hv⟩ := h r List.mem_cons_self
    obtain ⟨vs, hvs, hlength⟩ := ih fun s hs => h s (List.mem_cons_of_mem _ hs)
    exact ⟨v :: vs, by rw [List.mapM_cons, hv, hvs]; rfl, congrArg (· + 1) hlength⟩

end Registers

namespace Instr.Ready

variable {i : Instr} {functions : FunctionTable} {regs : Registers}

theorem read_operand (h : i.Ready functions regs) {k : Nat} (hk : k < i.operands.length) :
    ∃ r v, Program.operand i k = .ok r ∧ regs.read r = .ok v := by
  obtain ⟨v, hv⟩ := h.reads i.operands[k] (List.getElem_mem hk)
  refine ⟨i.operands[k], v, ?_, hv⟩
  rw [Program.operand, List.getElem?_eq_getElem hk]

/-- An instruction that is ready fails only when it calls a function that does. -/
theorem error_of_compute (h : i.Ready functions regs) {e : RunError}
    (he : Program.compute functions i regs = .error e) :
    ∃ f args, i.opcode = .call ∧ functions.get? i.callee = some f ∧ f args = .error e := by
  have takes := h.takes
  rw [Program.compute] at he
  cases hopcode : i.opcode with
  | const => simp [hopcode] at he
  | other opcode =>
    rw [hopcode] at takes
    exact takes.elim
  | ret =>
    rw [hopcode] at takes
    obtain ⟨r, v, hfirst, hv⟩ := h.read_operand (k := 0) (by rw [takes]; decide)
    simp only [hopcode, hfirst] at he
    cases hv.symm.trans he
  | binary op =>
    rw [hopcode] at takes
    obtain ⟨l, a, hleft, ha⟩ := h.read_operand (k := 0) (by rw [takes]; decide)
    obtain ⟨r, b, hright, hb⟩ := h.read_operand (k := 1) (by rw [takes]; decide)
    simp only [hopcode, hleft, hright] at he
    change (regs.read l >>= fun a => regs.read r >>= fun b => .ok (op.apply a b)) = _ at he
    rw [ha, hb] at he
    cases he
  | call =>
    obtain ⟨args, hargs, -⟩ := Registers.mapM_read h.reads
    obtain ⟨f, hf⟩ := Option.isSome_iff_exists.1 (h.calls hopcode)
    simp only [hopcode, hargs] at he
    change Program.invoke functions i.callee args = _ at he
    rw [Program.invoke, hf] at he
    exact ⟨f, args, rfl, hf, he⟩

end Instr.Ready

namespace Program.WellFormed

variable {p : Program} {code : List Instr} {regs : Registers}

/-- With the registers of the places before it written, an instruction finds all it uses. -/
theorem ready_of_written (h : p.WellFormed) {before rest : List Instr} {i : Instr}
    (hcode : p.code = before ++ i :: rest)
    (hwritten : ∀ k < before.length, ∃ v, regs.read (k : Int) = .ok v) :
    i.Ready p.functions regs := by
  have hmem : i ∈ p.code := by
    rw [hcode]
    exact List.mem_append_right _ List.mem_cons_self
  have hplace : p.code[before.length]? = some i := by
    rw [hcode, List.getElem?_append_right (Nat.le_refl _), Nat.sub_self]
    rfl
  refine ⟨h.takes i hmem, fun r hr => ?_, h.calls i hmem⟩
  obtain ⟨hpos, hlt⟩ := h.reads _ i hplace r hr
  rw [← Int.toNat_of_nonneg hpos]
  exact hwritten r.toNat (by omega)

/-- Behind an instruction that does not return there is another one, and its register is written as
    well. -/
theorem written_next (h : p.WellFormed) {before rest : List Instr} {i : Instr}
    (hcode : p.code = before ++ i :: rest)
    (hwritten : ∀ k < before.length, ∃ v, regs.read (k : Int) = .ok v) (hi : i.opcode ≠ .ret)
    (v : Float) : rest ≠ [] ∧
      ∀ k < (before ++ [i]).length, ∃ w, (regs.write i.dest v).read (k : Int) = .ok w := by
  have hplace : p.code[before.length]? = some i := by
    rw [hcode, List.getElem?_append_right (Nat.le_refl _), Nat.sub_self]
    rfl
  refine ⟨?_, fun k hk => ?_⟩
  · rintro rfl
    exact hi ((h.returns _ i hplace).2 (by rw [hcode, List.length_append]; rfl))
  · rw [List.length_append, List.length_singleton] at hk
    rw [h.writes _ i hplace hi]
    by_cases hlast : k = before.length
    · subst hlast
      exact ⟨v, regs.read_write_self _ v⟩
    · rw [regs.read_write_of_ne (by omega)]
      exact hwritten k (by omega)

/-- What is left of the code is never empty, and the registers of the places before it are
    written. -/
theorem written (h : p.WellFormed) (hreaches : p.Reaches code regs) :
    ∃ before, p.code = before ++ code ∧ code ≠ [] ∧
      ∀ k < before.length, ∃ v, regs.read (k : Int) = .ok v := by
  induction hreaches with
  | start => exact ⟨[], rfl, h.nonempty, nofun⟩
  | @next i rest regs v _ hi hv ih =>
    obtain ⟨before, hcode, -, hwritten⟩ := ih
    obtain ⟨hne, hnext⟩ := h.written_next hcode hwritten hi v
    exact ⟨before ++ [i], by rw [hcode, List.append_assoc]; rfl, hne, hnext⟩

theorem ready (h : p.WellFormed) (hreaches : p.Reaches code regs) :
    ∃ i rest, code = i :: rest ∧ i.Ready p.functions regs := by
  obtain ⟨before, hcode, hne, hwritten⟩ := h.written hreaches
  obtain ⟨i, rest, rfl⟩ := List.exists_cons_of_ne_nil hne
  exact ⟨i, rest, rfl, h.ready_of_written hcode hwritten⟩

theorem error_of_exec (h : p.WellFormed) (hreaches : p.Reaches code regs) {e : RunError}
    (he : exec p.name p.functions code regs = .error e) :
    ∃ i ∈ p.code, ∃ f args, i.opcode = .call ∧ p.functions.get? i.callee = some f ∧
      f args = .error e := by
  induction code generalizing regs with
  | nil =>
    obtain ⟨i, rest, hcode, -⟩ := h.ready hreaches
    cases hcode
  | cons i rest ih =>
    obtain ⟨before, hcode, -⟩ := h.written hreaches
    obtain ⟨j, rest', hj, hready⟩ := h.ready hreaches
    obtain ⟨rfl, rfl⟩ := List.cons.inj hj
    rw [exec_cons] at he
    cases hv : compute p.functions i regs with
    | error e' =>
      rw [hv] at he
      cases he
      refine ⟨i, ?_, hready.error_of_compute hv⟩
      rw [hcode]
      exact List.mem_append_right _ List.mem_cons_self
    | ok v =>
      rw [hv] at he
      by_cases hi : i.opcode = .ret
      · change (if i.opcode = .ret then _ else _) = _ at he
        rw [if_pos hi] at he
        cases he
      · change (if i.opcode = .ret then _ else _) = _ at he
        rw [if_neg hi] at he
        exact ih (hreaches.next hi hv) he

/-- A well-formed program fails only where it calls a function that does. -/
theorem error_of_run (h : p.WellFormed) {e : RunError} (he : p.run = .error e) :
    ∃ i ∈ p.code, ∃ f args, i.opcode = .call ∧ p.functions.get? i.callee = some f ∧
      f args = .error e :=
  h.error_of_exec .start he

end Program.WellFormed

end ArithCompiler

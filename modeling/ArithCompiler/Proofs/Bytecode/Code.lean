import ArithCompiler.Backend.Bytecode
import ArithCompiler.Proofs.Compiler.Resolution

set_option autoImplicit false

/-!
# The code of a tree

The bytecode of a tree is its lines, each writing the register of its place, and then a return of
the last register.
-/

namespace ArithCompiler

open Resolver (Resolves)

instance : Inhabited Handle := ⟨.nothing⟩

def Line.instr (dest : Nat) : Line → Instr
  | const v => .const dest v
  | binary op i j => .binary op dest i j
  | call f is => .call dest f (is.map Int.ofNat)

namespace Line

@[simp]
theorem instr_dest (dest : Nat) (l : Line) : (l.instr dest).dest = some (dest : Int) := by
  cases l <;> rfl

@[simp]
theorem instr_operands (dest : Nat) (l : Line) :
    (l.instr dest).operands = l.operands.map Int.ofNat := by
  cases l <;> rfl

theorem instr_opcode_ne_ret (dest : Nat) (l : Line) : (l.instr dest).opcode ≠ .ret := by
  cases l <;> nofun

theorem call?_of_opcode {dest : Nat} {l : Line} (h : (l.instr dest).opcode = .call) :
    l.call? = some ((l.instr dest).callee, l.operands.length) := by
  cases l with
  | const | binary => cases h
  | call f is => rfl

end Line

namespace Bytecode

def instrs : Nat → List Line → List Instr
  | _, [] => []
  | dest, l :: ls => l.instr dest :: instrs (dest + 1) ls

theorem instrs_append (dest : Nat) (ls ls' : List Line) :
    instrs dest (ls ++ ls') = instrs dest ls ++ instrs (dest + ls.length) ls' := by
  induction ls generalizing dest with
  | nil => rfl
  | cons l ls ih =>
    rw [List.cons_append, instrs, ih, instrs, List.cons_append, List.length_cons,
      Nat.add_right_comm, Nat.add_assoc]

theorem instrs_length (dest : Nat) (ls : List Line) : (instrs dest ls).length = ls.length := by
  induction ls generalizing dest with
  | nil => rfl
  | cons l ls ih => rw [instrs, List.length_cons, ih, List.length_cons]

theorem instrs_getElem? (dest : Nat) (ls : List Line) (k : Nat) :
    (instrs dest ls)[k]? = ls[k]?.map fun l => l.instr (dest + k) := by
  induction ls generalizing dest k with
  | nil => rfl
  | cons l ls ih =>
    cases k with
    | zero => rfl
    | succ k =>
      rw [instrs, List.getElem?_cons_succ, ih, List.getElem?_cons_succ, Nat.add_right_comm,
        Nat.add_assoc]

def handles (used : Nat) : List Handle := (List.range used).map fun (i : Nat) => .register i

theorem handles_length (used : Nat) : (handles used).length = used := by
  rw [handles, List.length_map, List.length_range]

theorem handles_succ (used : Nat) : handles (used + 1) = handles used ++ [.register used] := by
  rw [handles, List.range_succ, List.map_append]
  rfl

theorem pick_handles {used i : Nat} (h : i < used) : pick (handles used) i = .register i := by
  simp [pick, handles, h]

theorem register_handle {b : Bytecode} {i : Nat} (h : i < b.used) :
    b.register (.register i) = .ok (i : Int) := by
  rw [register, if_pos ⟨by omega, by omega⟩]

theorem mapM_register {b : Bytecode} {is : List Nat} (h : ∀ i ∈ is, i < b.used) :
    (is.map (pick (handles b.used))).mapM b.register = .ok (is.map Int.ofNat) := by
  induction is with
  | nil => rfl
  | cons i is ih =>
    rw [List.map_cons, List.mapM_cons, pick_handles (h i List.mem_cons_self),
      register_handle (h i List.mem_cons_self), ih fun j hj => h j (List.mem_cons_of_mem _ hj)]
    rfl

def Covers (functions : Math.FunctionTable) (ls : List Line) : Prop :=
  ∀ c ∈ ls.filterMap Line.call?, (functions.get? c.1).isSome

variable (value : String → Float)

theorem line_runOn {b : Bytecode} {l : Line} (h : ∀ i ∈ l.operands, i < b.used)
    (hcall : ∀ c, l.call? = some c → (b.functions.get? c.1).isSome) :
    ((target.plain value).line (handles b.used) l).runOn b = (.ok (.register b.used),
      { b with code := b.code ++ [l.instr b.used], used := b.used + 1 }) := by
  cases l with
  | const v => rfl
  | binary op i j =>
    have hi : i < b.used := h i (by simp [Line.operands])
    have hj : j < b.used := h j (by simp [Line.operands])
    simp only [Operations.line, Target.plain, target, pick_handles hi, pick_handles hj,
      Step.runOn_bind, Step.runOn_get, register_handle hi, register_handle hj]
    rfl
  | call f is =>
    have hargs : ∀ i ∈ is, i < b.used := h
    have hf : ¬ (b.functions.get? f).isNone := by
      rw [Bool.not_eq_true, Option.isNone_eq_false_iff]
      exact hcall (f, is.length) rfl
    simp only [Operations.line, Target.plain, target, Step.runOn_bind, Step.runOn_get, if_neg hf,
      mapM_register hargs, Step.runOn_lift]
    rfl

theorem play_runOn {b : Bytecode} {ls : List Line} (h : Tree.Ordered b.used ls)
    (hcalls : Covers b.functions ls) :
    ((target.plain value).play ls (handles b.used)).runOn b
      = (.ok (handles (b.used + ls.length)),
          { b with code := b.code ++ instrs b.used ls, used := b.used + ls.length }) := by
  induction ls generalizing b with
  | nil => simp [Operations.play, instrs]
  | cons l ls ih =>
    obtain ⟨hl, hls⟩ := Line.forall_calls_cons.1 hcalls
    have hrest :=
      ih (b := { b with code := b.code ++ [l.instr b.used], used := b.used + 1 }) h.2 hls
    have hcount : b.used + 1 + ls.length = b.used + (l :: ls).length := by
      rw [List.length_cons]
      omega
    rw [Operations.play, Step.runOn_bind_ok (line_runOn value h.1 hl), ← handles_succ, hrest]
    simp only [hcount, instrs, List.append_assoc, List.cons_append, List.nil_append]

variable {r : Resolver} {e : Expr}

def unitCode (r : Resolver) (e : Expr) : List Instr :=
  instrs 0 (e.lines r.value 0) ++ [.ret e.inner]

theorem tree_runOn (h : Resolves r e) {b : Bytecode}
    (hcalls : ∀ c ∈ e.calls, (b.functions.get? c.1).isSome) :
    ((target.operations r).tree e).runOn b = (.ok (.register (b.used + e.inner : Nat)),
      { b with code := b.code ++ instrs b.used (e.lines r.value b.used),
               used := b.used + (e.inner + 1) }) := by
  have hcovers : Covers b.functions (e.lines r.value b.used) := by
    intro c hc
    rw [Tree.lines_calls] at hc
    exact hcalls c hc
  have hplay := play_runOn r.value (Tree.ordered_lines r.value b.used e) hcovers
  have hpick : pick (handles (b.used + (e.inner + 1))) (b.used + e.inner)
      = .register (b.used + e.inner : Nat) := pick_handles (by omega)
  rw [target.operations_tree h,
    Operations.tree_eq_play (target.plain_plain r.value) e (handles b.used), Step.runOn_map,
    handles_length, hplay, Tree.lines_length]
  simp only [Except.map, hpick]

theorem unit_runOn (h : Resolves r e) {b : Bytecode}
    (hcalls : ∀ c ∈ e.calls, (b.functions.get? c.1).isSome) :
    (target.unit r e).runOn b = (.ok ⟨entryPoint, b.earlier.length + 1⟩,
      ⟨b.functions, b.earlier ++ [b.code], unitCode r e, e.inner + 1⟩) := by
  have hopening : target.opening.runOn b
      = (.ok (), ⟨b.functions, b.earlier ++ [b.code], [], 0⟩) := rfl
  have htree := tree_runOn h (b := ⟨b.functions, b.earlier ++ [b.code], [], 0⟩) hcalls
  simp only [Nat.zero_add, List.nil_append] at htree
  rw [Target.unit, Step.runOn_bind_ok hopening, Step.runOn_bind_ok htree]
  have hregister := register_handle (i := e.inner)
    (b := ⟨b.functions, b.earlier ++ [b.code], instrs 0 (e.lines r.value 0), e.inner + 1⟩)
    (Nat.lt_succ_self _)
  simp only [Target.closing, target, Step.runOn_bind, Step.runOn_get, hregister, Step.runOn_lift,
    Step.runOn_set, Step.runOn_pure, List.length_append, List.length_cons, List.length_nil]
  rfl

/-! ## Functions that are missing -/

theorem emit_functions {b b' : Bytecode} {i : Nat → Instr} {v : Handle}
    (h : (emit i).runOn b = (.ok v, b')) : b'.functions = b.functions := by
  cases h
  rfl

theorem line_functions {hs : List Handle} {l : Line} {b b' : Bytecode} {v : Handle}
    (h : ((target.plain value).line hs l).runOn b = (.ok v, b')) :
    b'.functions = b.functions ∧ ∀ c, l.call? = some c → (b.functions.get? c.1).isSome := by
  cases l with
  | const w =>
    change (emit fun dest => .const dest w).runOn b = _ at h
    exact ⟨emit_functions h, nofun⟩
  | binary op i j =>
    obtain ⟨_, _, hget, h⟩ := Step.runOn_bind_eq_ok h
    obtain ⟨_, _, hleft, h⟩ := Step.runOn_bind_eq_ok h
    obtain ⟨_, _, hright, h⟩ := Step.runOn_bind_eq_ok h
    rw [Step.runOn_lift] at hleft hright
    cases hget
    rw [Prod.mk.injEq] at hleft hright
    obtain ⟨-, rfl⟩ := hleft
    obtain ⟨-, rfl⟩ := hright
    exact ⟨emit_functions h, nofun⟩
  | call f is =>
    obtain ⟨_, _, hget, h⟩ := Step.runOn_bind_eq_ok h
    cases hget
    by_cases hf : (b.functions.get? f).isNone
    · simp only [if_pos hf] at h
      cases h
    · simp only [if_neg hf] at h
      obtain ⟨_, _, hargs, h⟩ := Step.runOn_bind_eq_ok h
      rw [Step.runOn_lift, Prod.mk.injEq] at hargs
      obtain ⟨-, rfl⟩ := hargs
      refine ⟨emit_functions h, fun c hc => ?_⟩
      cases hc
      rwa [Bool.not_eq_true, Option.isNone_eq_false_iff] at hf

theorem play_covers {ls : List Line} {hs hs' : List Handle} {b b' : Bytecode}
    (h : ((target.plain value).play ls hs).runOn b = (.ok hs', b')) : Covers b.functions ls := by
  induction ls generalizing b hs with
  | nil => exact nofun
  | cons l ls ih =>
    obtain ⟨v, b₁, hl, h⟩ := Step.runOn_bind_eq_ok h
    obtain ⟨hfunctions, hcall⟩ := line_functions value hl
    exact Line.forall_calls_cons.2 ⟨hcall, hfunctions ▸ ih h⟩

theorem calls_of_runOn {b b' : Bytecode} {v : Handle}
    (h : ((target.operations r).tree e).runOn b = (.ok v, b')) :
    ∀ c ∈ e.calls, (b.functions.get? c.1).isSome := by
  rw [target.operations_tree (target.resolves_of_runOn h),
    Operations.tree_eq_play (target.plain_plain r.value) e [], Step.runOn_map, Prod.mk.injEq] at h
  obtain ⟨houtcome, -⟩ := h
  cases hplay : ((target.plain r.value).play (e.lines r.value 0) []).runOn b with
  | mk outcome b₁ =>
    simp only [List.length_nil] at houtcome
    rw [hplay] at houtcome
    cases outcome with
    | error f => cases houtcome
    | ok hs =>
      intro c hc
      rw [← Tree.lines_calls r.value 0] at hc
      exact play_covers r.value hplay c hc

end Bytecode

end ArithCompiler

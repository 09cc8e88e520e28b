import ArithCompiler.Proofs.Native.Declarations
import ArithCompiler.Proofs.Tree.Lines

set_option autoImplicit false

/-!
# Bodies under construction

Each instruction of a body gives its result a name of its own, so a result that is there stays as it
is while instructions are appended. A body is filled together with operands that stand for values.
-/

namespace ArithCompiler

open Math (Elementary)

instance : Inhabited Operand := ⟨.const 0.0⟩

namespace NativeInstr

def value (c : Elementary) (rs : Results) : NativeInstr → Float
  | binary op _ left right => arithmetic op (rs.get left) (rs.get right)
  | call _ callee args => callNative c [] callee (args.map rs.get)
  | ret operand => rs.get operand

def execute (c : Elementary) (rs : Results) (i : NativeInstr) : Results :=
  match i.dest? with
  | some dest => (dest, i.value c rs) :: rs
  | none => rs

def dests (body : List NativeInstr) : List ResultName := body.filterMap dest?

def results (c : Elementary) (body : List NativeInstr) : Results := body.foldl (execute c) []

def Known (names : List ResultName) (o : Operand) : Prop := ∀ name, o = .result name → name ∈ names

def Sound : List ResultName → List NativeInstr → Prop
  | _, [] => True
  | known, i :: rest =>
    i.isReturn = false ∧ (∀ o ∈ i.operands, Known known o) ∧ Sound (i.dest?.toList ++ known) rest

theorem dests_concat (body : List NativeInstr) (i : NativeInstr) :
    dests (body ++ [i]) = dests body ++ i.dest?.toList := by
  rw [dests, List.filterMap_append]
  cases h : i.dest? <;> simp [dests, h]

theorem Known.mono {names names' : List ResultName} {o : Operand} (h : Known names o)
    (hsub : ∀ name ∈ names, name ∈ names') : Known names' o :=
  fun name ho => hsub name (h name ho)

theorem mem_dests_cons {i : NativeInstr} {body : List NativeInstr} {known : List ResultName}
    {name : ResultName} :
    name ∈ dests (i :: body) ++ known ↔ name ∈ dests body ++ (i.dest?.toList ++ known) := by
  rw [dests, List.filterMap_cons]
  cases i.dest? with
  | none => rfl
  | some dest =>
    simp only [dests, Option.toList_some, List.mem_append, List.mem_cons, List.not_mem_nil,
      or_false]
    rw [or_assoc, or_left_comm]

theorem Sound.concat {known : List ResultName} {body : List NativeInstr} {i : NativeInstr}
    (h : Sound known body) (hi : i.isReturn = false)
    (hoperands : ∀ o ∈ i.operands, Known (dests body ++ known) o) : Sound known (body ++ [i]) := by
  induction body generalizing known with
  | nil => exact ⟨hi, hoperands, trivial⟩
  | cons j body ih =>
    refine ⟨h.1, h.2.1, ih h.2.2 fun o ho => ?_⟩
    exact (hoperands o ho).mono fun name hname => mem_dests_cons.1 hname

theorem Sound.any_isReturn {known : List ResultName} {body : List NativeInstr}
    (h : Sound known body) : body.any (·.isReturn) = false := by
  induction body generalizing known with
  | nil => rfl
  | cons i body ih => rw [List.any_cons, h.1, ih h.2.2]; rfl

theorem Sound.isClosed {m : NativeModule} {known : List ResultName} {body : List NativeInstr}
    {operand : Operand} (h : Sound known body)
    (hcalls : ∀ dest callee args, .call dest callee args ∈ body →
      m.arity? callee = some args.length)
    (hoperand : Known (dests body ++ known) operand) :
    m.isClosed known (body ++ [.ret operand]) = true := by
  induction body generalizing known with
  | nil =>
    rw [List.nil_append]
    unfold NativeModule.isClosed
    rw [Bool.and_eq_true, Bool.and_eq_true]
    refine ⟨⟨List.all_eq_true.2 fun o ho => ?_, rfl⟩, rfl⟩
    obtain rfl := List.mem_singleton.1 ho
    cases o with
    | const v => rfl
    | result name => exact List.contains_iff_mem.2 (hoperand name rfl)
  | cons i body ih =>
    rw [List.cons_append]
    unfold NativeModule.isClosed
    rw [Bool.and_eq_true, Bool.and_eq_true]
    refine ⟨⟨List.all_eq_true.2 fun o ho => ?_, ?_⟩, ?_⟩
    · cases o with
      | const v => rfl
      | result name => exact List.contains_iff_mem.2 (h.2.1 _ ho name rfl)
    · cases i with
      | binary op dest left right => rfl
      | ret o => rfl
      | call dest callee args =>
        change (m.arity? callee == some args.length) = true
        rw [hcalls dest callee args List.mem_cons_self]
        exact beq_self_eq_true _
    · rw [h.1, if_neg Bool.false_ne_true]
      refine ih h.2.2 (fun dest callee args hi => hcalls dest callee args ?_) ?_
      · exact List.mem_cons_of_mem _ hi
      · exact hoperand.mono fun name hname => mem_dests_cons.1 hname

theorem runBody_return (c : Elementary) {known : List ResultName} {body : List NativeInstr}
    (h : Sound known body) (operand : Operand) (rs : Results) :
    runBody c [] rs (body ++ [.ret operand]) = (body.foldl (execute c) rs).get operand := by
  induction body generalizing known rs with
  | nil => rfl
  | cons i body ih =>
    rw [List.cons_append, List.foldl_cons, ← ih h.2.2]
    cases i with
    | binary op dest left right => rfl
    | call dest callee args => rfl
    | ret o => cases h.1

end NativeInstr

open NativeInstr (dests results Known Sound)

/-! ## Filling a body -/

structure Stands (c : Elementary) (body : List NativeInstr) (o : Operand) (v : Float) : Prop where
  known : Known (dests body) o
  get_eq : (results c body).get o = v

/-- The operands stand for the values, and the body can be closed with a return of any of them. -/
structure Filled (c : Elementary) (body : List NativeInstr) (declarations : List Declaration)
    (hs : List Operand) (vs : List Float) : Prop where
  library : ∀ d ∈ declarations, d ∈ Declaration.library
  declared : ∀ dest callee args, .call dest callee args ∈ body →
    ∃ d ∈ declarations, d.name = callee ∧ d.arity = args.length
  sound : Sound [] body
  numbered : ∀ name ∈ dests body,
    name.copy < body.countP fun i => i.dest?.any (·.stem == name.stem)
  length_eq : hs.length = vs.length
  stands : ∀ i < vs.length, Stands c body (pick hs i) (pick vs i)

namespace Filled

variable {c : Elementary} {body : List NativeInstr} {declarations : List Declaration}
  {hs : List Operand} {vs : List Float}

theorem empty : Filled c [] [] [] [] :=
  ⟨nofun, nofun, trivial, nofun, rfl, nofun⟩

theorem length_concat (h : Filled c body declarations hs vs) (o : Operand) (v : Float) :
    (hs ++ [o]).length = (vs ++ [v]).length := by
  rw [List.length_append, List.length_append, h.length_eq]
  rfl

theorem const (h : Filled c body declarations hs vs) (v : Float) :
    Filled c body declarations (hs ++ [.const v]) (vs ++ [v]) where
  library := h.library
  declared := h.declared
  sound := h.sound
  numbered := h.numbered
  length_eq := h.length_concat _ _
  stands := forall_pick_concat h.length_eq h.stands ⟨nofun, rfl⟩

theorem declare (h : Filled c body declarations hs vs) {declarations' : List Declaration}
    (hlibrary : ∀ d ∈ declarations', d ∈ Declaration.library)
    (hsub : ∀ d ∈ declarations, d ∈ declarations') : Filled c body declarations' hs vs := by
  refine { h with library := hlibrary, declared := fun dest callee args hi => ?_ }
  obtain ⟨d, hd, heq⟩ := h.declared dest callee args hi
  exact ⟨d, hsub d hd, heq⟩

def next (body : List NativeInstr) (stem : Stem) : ResultName :=
  (⟨entryPoint, body⟩ : NativeFunction).freshName stem

theorem next_not_mem (h : Filled c body declarations hs vs) (stem : Stem) :
    next body stem ∉ dests body := by
  intro hmem
  exact Nat.lt_irrefl _ (h.numbered _ hmem)

theorem results_concat {stem : Stem} {i : NativeInstr} (hdest : i.dest? = some (next body stem)) :
    results c (body ++ [i]) = (next body stem, i.value c (results c body)) :: results c body := by
  rw [results, List.foldl_append, List.foldl_cons, List.foldl_nil, NativeInstr.execute, hdest]
  rfl

/-- A result that is there is not changed by an instruction whose result has the next name. -/
theorem stands_concat (h : Filled c body declarations hs vs) {stem : Stem} {i : NativeInstr}
    (hdest : i.dest? = some (next body stem)) {o : Operand} {v : Float}
    (ho : Stands c body o v) : Stands c (body ++ [i]) o v := by
  refine ⟨ho.known.mono fun name hname => ?_, ?_⟩
  · rw [NativeInstr.dests_concat]
    exact List.mem_append_left _ hname
  · rw [results_concat hdest, ← ho.get_eq]
    cases o with
    | const w => rfl
    | result name =>
      have hne : (name == next body stem) = false := by
        rw [beq_eq_false_iff_ne]
        rintro rfl
        exact h.next_not_mem stem (ho.known _ rfl)
      simp only [Results.get, List.lookup_cons, hne]

theorem numbered_concat (h : Filled c body declarations hs vs) {stem : Stem} {i : NativeInstr}
    (hdest : i.dest? = some (next body stem)) : ∀ name ∈ dests (body ++ [i]),
      name.copy < (body ++ [i]).countP fun i => i.dest?.any (·.stem == name.stem) := by
  intro name hname
  rw [NativeInstr.dests_concat, hdest] at hname
  rw [List.countP_append]
  rcases List.mem_append.1 hname with hname | hname
  · exact Nat.lt_of_lt_of_le (h.numbered name hname) (Nat.le_add_right _ _)
  · obtain rfl := List.mem_singleton.1 hname
    have hone : [i].countP (fun i => i.dest?.any (·.stem == (next body stem).stem)) = 1 := by
      simp [hdest]
    rw [hone]
    exact Nat.lt_succ_self _

theorem emit (h : Filled c body declarations hs vs) (stem : Stem) {i : NativeInstr}
    (hdest : i.dest? = some (next body stem)) (hoperands : ∀ o ∈ i.operands, Known (dests body) o)
    (hcall : ∀ dest callee args, i = .call dest callee args →
      ∃ d ∈ declarations, d.name = callee ∧ d.arity = args.length) :
    Filled c (body ++ [i]) declarations (hs ++ [.result (next body stem)])
      (vs ++ [i.value c (results c body)]) where
  library := h.library
  declared := by
    intro dest callee args hi
    rcases List.mem_append.1 hi with hi | hi
    · exact h.declared dest callee args hi
    · exact hcall dest callee args (List.mem_singleton.1 hi).symm
  sound := by
    refine h.sound.concat ?_ ?_
    · cases i with
      | binary op dest left right => rfl
      | call dest callee args => rfl
      | ret o => cases hdest
    · rw [List.append_nil]
      exact hoperands
  numbered := h.numbered_concat hdest
  length_eq := h.length_concat _ _
  stands := by
    refine forall_pick_concat h.length_eq (fun i hi => h.stands_concat hdest (h.stands i hi)) ?_
    refine ⟨fun name hname => ?_, ?_⟩
    · cases hname
      rw [NativeInstr.dests_concat, hdest]
      exact List.mem_append_right _ (List.mem_singleton.2 rfl)
    · rw [results_concat hdest, Results.get, List.lookup_cons_self]
      rfl

end Filled

end ArithCompiler

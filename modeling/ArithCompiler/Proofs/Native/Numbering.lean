import ArithCompiler.Proofs.Compiler.Refusal
import ArithCompiler.Proofs.Native.Inlining

set_option autoImplicit false

/-!
# Bodies in single assignment

The body that lines give has one instruction for each line that is not a constant. Results have
different names, as texts too, and each is used only by instructions that come later.
-/

namespace ArithCompiler

/-! ## Names as texts -/

def Stem.initial : Stem → Char
  | operator .add => 'a'
  | operator .subtract => 's'
  | operator .multiply => 'm'
  | operator .divide => 'd'
  | call => 'c'

theorem Stem.initial_injective : Function.Injective Stem.initial := by
  rintro (⟨_ | _ | _ | _⟩ | _) (⟨_ | _ | _ | _⟩ | _) h <;> first | rfl | exact absurd h (by decide)

theorem Stem.text_toList (s : Stem) : ∃ cs, s.text.toList = s.initial :: cs := by
  rcases s with ⟨_ | _ | _ | _⟩ | _ <;> exact ⟨_, rfl⟩

def ResultName.suffix (copy : Nat) : List Char :=
  if copy = 0 then [] else '.' :: (toString copy).toList

theorem ResultName.suffix_injective {i j : Nat}
    (h : ResultName.suffix i ++ ['"'] = ResultName.suffix j ++ ['"']) : i = j := by
  have hsame := List.append_cancel_right h
  unfold suffix at hsame
  by_cases hi : i = 0 <;> by_cases hj : j = 0 <;> simp only [hi, hj, if_true, if_false] at hsame
  · rw [hi, hj]
  · cases hsame
  · cases hsame
  · exact Nat.repr_injective (String.toList_injective (List.cons.inj hsame).2)

theorem ResultName.text_injective : Function.Injective ResultName.text := by
  intro a b h
  have htext : ∀ r : ResultName, r.text.toList
      = ['%', '"'] ++ (r.stem.text.toList ++ (suffix r.copy ++ ['"'])) := by
    intro r
    unfold text suffix
    split <;> simp
  have hlist : a.stem.text.toList ++ (suffix a.copy ++ ['"'])
      = b.stem.text.toList ++ (suffix b.copy ++ ['"']) := by
    have := congrArg String.toList h
    rw [htext, htext] at this
    exact List.append_cancel_left this
  -- stems differ in their first letter, so what is left of both texts is the copy
  have hstem : a.stem = b.stem := by
    obtain ⟨cs, hcs⟩ := a.stem.text_toList
    obtain ⟨cs', hcs'⟩ := b.stem.text_toList
    rw [hcs, hcs'] at hlist
    exact Stem.initial_injective (List.cons.inj hlist).1
  rw [hstem] at hlist
  have hcopy := suffix_injective (List.append_cancel_left hlist)
  cases a
  cases b
  exact congrArg₂ ResultName.mk hstem hcopy

def NativeInstr.callee? : NativeInstr → Option String
  | call _ callee _ => some callee
  | binary .. | ret _ => none

open NativeInstr (dests Known Sound)

namespace NativeModule

variable {before ls : List Line} {l : Line} {i : NativeInstr}

/-! ## Results of a body -/

theorem lineInstr?_eq_some (h : lineInstr? before l = some i) : ∃ stem, l.stem? = some stem ∧
    i.dest? = some ⟨stem, copies before stem⟩ ∧ i.isReturn = false ∧
      i.operands = l.operands.map (operandAt before) := by
  cases l with
  | const v => cases h
  | binary op j k =>
    cases h
    exact ⟨.operator op, rfl, rfl, rfl, rfl⟩
  | call f is =>
    cases h
    exact ⟨.call, rfl, rfl, rfl, rfl⟩

/-- Results are numbered below the next one with their stem. -/
theorem copy_lt_of_mem_dests {name : ResultName} (h : name ∈ dests (inlined [] ls)) :
    name.copy < copies ls name.stem := by
  induction ls using List.reverseRecOn with
  | nil => cases h
  | append_singleton ls l ih =>
    rw [inlined_concat] at h
    rw [copies_concat]
    cases hi : lineInstr? ls l with
    | none =>
      rw [hi, Option.toList_none, List.append_nil] at h
      exact Nat.lt_add_right _ (ih h)
    | some i =>
      obtain ⟨stem, hstem, hdest, -, -⟩ := lineInstr?_eq_some hi
      rw [hi, Option.toList_some, NativeInstr.dests_concat, hdest] at h
      rcases List.mem_append.1 h with h | h
      · exact Nat.lt_add_right _ (ih h)
      · obtain rfl := List.mem_singleton.1 h
        rw [if_pos hstem]
        exact Nat.lt_succ_self _

theorem dests_inlined_nodup (ls : List Line) : (dests (inlined [] ls)).Nodup := by
  induction ls using List.reverseRecOn with
  | nil => exact List.nodup_nil
  | append_singleton ls l ih =>
    rw [inlined_concat]
    cases hi : lineInstr? ls l with
    | none =>
      rw [Option.toList_none, List.append_nil]
      exact ih
    | some i =>
      obtain ⟨stem, -, hdest, -, -⟩ := lineInstr?_eq_some hi
      rw [Option.toList_some, NativeInstr.dests_concat, hdest, Option.toList_some]
      rw [← List.concat_eq_append]
      exact ih.concat fun hmem => Nat.lt_irrefl _ (copy_lt_of_mem_dests hmem)

theorem known_operandAt {place : Nat} (h : place < ls.length) :
    Known (dests (inlined [] ls)) (operandAt ls place) := by
  induction ls using List.reverseRecOn with
  | nil => exact absurd h (Nat.not_lt_zero _)
  | append_singleton ls l ih =>
    have hkept : ∀ name ∈ dests (inlined [] ls), name ∈ dests (inlined [] (ls ++ [l])) := by
      intro name hname
      rw [inlined_concat, dests, List.filterMap_append]
      exact List.mem_append_left _ hname
    rw [List.length_append, List.length_singleton] at h
    by_cases hlast : place = ls.length
    · subst hlast
      rw [operandAt_concat, inlined_concat]
      intro name hname
      cases l with
      | const v => cases hname
      | binary op j k =>
        cases hname
        rw [lineInstr?, Option.toList_some, NativeInstr.dests_concat]
        exact List.mem_append_right _ (List.mem_singleton.2 rfl)
      | call f is =>
        cases hname
        rw [lineInstr?, Option.toList_some, NativeInstr.dests_concat]
        exact List.mem_append_right _ (List.mem_singleton.2 rfl)
    · have hplace : place < ls.length := by omega
      rw [operandAt_append hplace]
      exact (ih hplace).mono hkept

theorem sound_inlined (h : Tree.Ordered 0 ls) : Sound [] (inlined [] ls) := by
  induction ls using List.reverseRecOn with
  | nil => trivial
  | append_singleton ls l ih =>
    have hbefore : Tree.Ordered 0 ls := by
      have := h.take ls.length
      rwa [List.take_left] at this
    have hoperands : ∀ place ∈ l.operands, place < ls.length := by
      have := Tree.operands_lt h (List.getElem?_concat_length (l := ls) (a := l))
      simpa using this
    rw [inlined_concat]
    cases hi : lineInstr? ls l with
    | none =>
      rw [Option.toList_none, List.append_nil]
      exact ih hbefore
    | some i =>
      obtain ⟨stem, -, -, hreturn, hmap⟩ := lineInstr?_eq_some hi
      refine (ih hbefore).concat hreturn fun o ho => ?_
      rw [hmap] at ho
      obtain ⟨place, hplace, rfl⟩ := List.mem_map.1 ho
      rw [List.append_nil]
      exact known_operandAt (hoperands place hplace)

theorem known_of_sound {known : List ResultName} {code before after : List NativeInstr}
    {i : NativeInstr} (h : Sound known code) (hsplit : code = before ++ i :: after) :
    ∀ o ∈ i.operands, Known (dests before ++ known) o := by
  induction before generalizing known code with
  | nil =>
    subst hsplit
    exact h.2.1
  | cons j before ih =>
    subst hsplit
    intro o ho
    exact (ih h.2.2 rfl o ho).mono fun name hname => NativeInstr.mem_dests_cons.2 hname

theorem known_of_sound_return {code before after : List NativeInstr} {i : NativeInstr}
    {result : Operand} (h : Sound [] code) (hresult : Known (dests code) result)
    (hsplit : code ++ [.ret result] = before ++ i :: after) :
    ∀ o ∈ i.operands, Known (dests before) o := by
  rcases List.eq_nil_or_concat after with rfl | ⟨after', last, rfl⟩
  · obtain ⟨rfl, hreturn⟩ := List.append_inj' hsplit rfl
    cases hreturn
    exact List.forall_mem_singleton.2 hresult
  · rw [List.concat_eq_append, ← List.cons_append, ← List.append_assoc] at hsplit
    have hcode := (List.append_inj' hsplit rfl).1
    have := known_of_sound h hcode
    rwa [List.append_nil] at this

end NativeModule

/-! ## Operators and calls -/

def Visit.computes : Visit → Bool
  | binary _ | call _ _ => true
  | number _ | name _ | enter _ => false

inductive Makes : Visit → NativeInstr → Prop
  | binary (op : Operator) (dest : ResultName) (left right : Operand) :
      Makes (.binary op) (.binary op dest left right)
  | call (function : String) (dest : ResultName) {args : List Operand} {count : Nat} :
      args.length = count →
      Makes (.call function count) (.call dest (NativeModule.calleeName function) args)

namespace NativeModule

theorem makes_inlined (before ls : List Line) :
    List.Forall₂ Makes ((ls.map Line.visit).filter Visit.computes) (inlined before ls) := by
  induction ls generalizing before with
  | nil => exact .nil
  | cons l ls ih =>
    cases l with
    | const v => exact ih _
    | binary op i j => exact .cons (.binary op _ _ _) (ih _)
    | call f is => exact .cons (.call f _ (List.length_map _)) (ih _)

theorem visits_computes (value : String → Float) (vs : List Visit) :
    ((vs.filter Visit.completes).map (Visit.resolved value)).filter Visit.computes
      = vs.filter Visit.computes := by
  induction vs with
  | nil => rfl
  | cons v vs ih =>
    cases v with
    | number w | name x | enter f => exact ih
    | binary op => exact congrArg (.binary op :: ·) ih
    | call f n => exact congrArg (.call f n :: ·) ih

theorem makes_lines (value : String → Float) (start : Nat) (e : Expr) :
    List.Forall₂ Makes (e.visits.filter Visit.computes) (inlined [] (e.lines value start)) := by
  rw [← visits_computes value, ← Tree.lines_visits value start]
  exact makes_inlined [] _

theorem call_mem_inlined {dest : ResultName} {callee : String} {args : List Operand}
    {before ls : List Line} (h : .call dest callee args ∈ inlined before ls) :
    ∃ q ∈ ls.filterMap Line.call?, calleeName q.1 = callee ∧ q.2 = args.length := by
  induction ls generalizing before with
  | nil => cases h
  | cons l ls ih =>
    cases l with
    | const v => exact ih h
    | binary op i j =>
      rcases List.mem_cons.1 h with h | h
      · cases h
      · exact ih h
    | call f is =>
      rcases List.mem_cons.1 h with h | h
      · cases h
        exact ⟨(f, is.length), List.mem_cons_self, rfl, (List.length_map _).symm⟩
      · obtain ⟨q, hq, hcall⟩ := ih h
        exact ⟨q, List.mem_cons_of_mem _ hq, hcall⟩

theorem callees_inlined (before ls : List Line) :
    (inlined before ls).filterMap NativeInstr.callee?
      = (ls.filterMap Line.call?).map (calleeName ·.1) := by
  induction ls generalizing before with
  | nil => rfl
  | cons l ls ih =>
    cases l with
    | const v => exact ih _
    | binary op i j => exact ih _
    | call f is => exact congrArg (calleeName f :: ·) (ih _)

end NativeModule

end ArithCompiler

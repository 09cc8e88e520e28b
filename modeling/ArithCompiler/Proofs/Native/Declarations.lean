import ArithCompiler.Backend.NativeModule
import ArithCompiler.Proofs.Math.Tables

set_option autoImplicit false

/-!
# Declarations of library functions

A call of a function of the mathematics library finds its declaration or adds it. The declarations
that come about so are a fixed list, in which a name has one entry.
-/

namespace ArithCompiler

open Math (Elementary)

def Declaration.ofFunction (function : String) (arity : Int) : Declaration :=
  ⟨(intrinsic? function).getD function, arity.toNat, (intrinsic? function).isNone⟩

namespace Declaration

def library : List Declaration := Math.arities.map fun p => ofFunction p.1 p.2

theorem ofFunction_mem_library {p : String × Int} (hp : p ∈ Math.arities) :
    ofFunction p.1 p.2 ∈ library := List.mem_map.2 ⟨p, hp, rfl⟩

theorem eq_of_name_eq : ∀ d ∈ library, ∀ d' ∈ library, d.name = d'.name → d = d' := by
  decide +kernel

theorem name_ne_entryPoint : ∀ d ∈ library, d.name ≠ entryPoint := by
  decide +kernel

theorem function_ne_entryPoint : ∀ p ∈ Math.arities, p.1 ≠ entryPoint := by
  decide +kernel

theorem intrinsic_arity : ∀ d ∈ library, (!intrinsics.contains d.name || d.arity == 1) = true := by
  decide +kernel

end Declaration

theorem callNative_library (c : Elementary) {p : String × Int} (hp : p ∈ Math.arities)
    (args : List Float) :
    callNative c [] (Declaration.ofFunction p.1 p.2).name args = Math.symbol c p.1 args := by
  have hsymbol : ∀ p ∈ Math.arities,
      (if (Declaration.ofFunction p.1 p.2).name == "llvm.sqrt.f64" then "sqrt"
        else if (Declaration.ofFunction p.1 p.2).name == "llvm.fabs.f64" then "fabs"
        else (Declaration.ofFunction p.1 p.2).name) = p.1 := by
    decide +kernel
  rw [callNative, hsymbol p hp, Math.symbol]
  cases Math.native? c p.1 <;> rfl

namespace NativeModule

/-- The module while its first unit is filled. -/
def filling (body : List NativeInstr) (declarations : List Declaration) : NativeModule :=
  ⟨[], some ⟨entryPoint, body⟩, declarations, true⟩

variable {body : List NativeInstr} {declarations : List Declaration}

theorem arity?_filling {name : String} (h : name ≠ entryPoint) :
    (filling body declarations).arity? name
      = (declarations.find? (·.name == name)).map (·.arity) := by
  have hne : (entryPoint == name) = false := by
    rw [beq_eq_false_iff_ne]
    exact h.symm
  change ((Global.define ⟨entryPoint, body⟩ :: declarations.map Global.declare).find?
    (·.name == name)).map (·.arity) = _
  rw [List.find?_cons, show (Global.define ⟨entryPoint, body⟩).name = entryPoint from rfl, hne,
    List.find?_map, Option.map_map]
  rfl

variable (hlibrary : ∀ d ∈ declarations, d ∈ Declaration.library)
include hlibrary

theorem arity?_declared {d : Declaration} (hd : d ∈ declarations) :
    (filling body declarations).arity? d.name = some d.arity := by
  rw [arity?_filling (d.name_ne_entryPoint (hlibrary d hd))]
  cases hfind : declarations.find? (·.name == d.name) with
  | none =>
    have := List.find?_eq_none.1 hfind d hd
    simp at this
  | some d' =>
    have hname : d'.name = d.name := by simpa using List.find?_some hfind
    have hmem := List.mem_of_find?_eq_some hfind
    rw [Declaration.eq_of_name_eq d' (hlibrary d' hmem) d (hlibrary d hd) hname]
    rfl

theorem arity?_undeclared {d : Declaration} (hd : d ∈ Declaration.library)
    (hnot : d ∉ declarations) : (filling body declarations).arity? d.name = none := by
  rw [arity?_filling (d.name_ne_entryPoint hd), Option.map_eq_none_iff, List.find?_eq_none]
  intro d' hd' hname
  have heq := Declaration.eq_of_name_eq d' (hlibrary d' hd') d hd (by simpa using hname)
  rw [heq] at hd'
  exact hnot hd'

theorem declare_runOn (body : List NativeInstr) {function : String} {count : Nat}
    (hp : (function, (count : Int)) ∈ Math.arities) :
    ∃ declarations', (declare function count).runOn (filling body declarations)
        = (.ok ((Declaration.ofFunction function count).name, count), filling body declarations') ∧
      (∀ d ∈ declarations, d ∈ declarations') ∧
      (∀ d ∈ declarations', d ∈ Declaration.library) ∧
      Declaration.ofFunction function count ∈ declarations' := by
  have hmem := Declaration.ofFunction_mem_library hp
  by_cases hd : Declaration.ofFunction function count ∈ declarations
  · refine ⟨declarations, ?_, fun _ h => h, hlibrary, hd⟩
    have harity : (filling body declarations).arity? ((intrinsic? function).getD function)
        = some count := arity?_declared hlibrary hd
    have hself : (filling body declarations).unit.any (·.name == function) = false := by
      change (entryPoint == function) = false
      rw [beq_eq_false_iff_ne]
      exact (Declaration.function_ne_entryPoint _ hp).symm
    have hcount : decide (count ≠ count) = false := decide_eq_false fun h => h rfl
    rw [declare, Step.runOn_bind_ok (Step.runOn_get _)]
    simp only [harity, hself, hcount, Bool.or_false, Bool.and_false]
    rfl
  · refine ⟨declarations ++ [.ofFunction function count], ?_,
      fun d h => List.mem_append_left _ h, ?_, List.mem_append_right _ (List.mem_singleton.2 rfl)⟩
    · have harity : (filling body declarations).arity? ((intrinsic? function).getD function)
          = none := arity?_undeclared hlibrary hmem hd
      rw [declare, Step.runOn_bind_ok (Step.runOn_get _)]
      simp only [harity]
      rfl
    · intro d h
      rcases List.mem_append.1 h with h | h
      · exact hlibrary d h
      · rw [List.mem_singleton.1 h]
        exact hmem

end NativeModule

end ArithCompiler

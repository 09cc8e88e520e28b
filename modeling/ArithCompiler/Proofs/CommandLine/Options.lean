import ArithCompiler.CommandLine.Options

set_option autoImplicit false

/-!
# Options that are accepted

Whatever the arguments, options that are read from them have a level that every engine takes, and a
scope over the functions of the library.
-/

namespace ArithCompiler

namespace Options

variable {o o' : Options}

theorem level?_le {text : String} {level : Nat} (h : level? text = some level) : level ≤ 3 := by
  rw [level?] at h
  split at h
  · rename_i c _
    split at h
    · rename_i hdigit
      obtain ⟨-, hle⟩ := Bool.and_eq_true_iff.1 hdigit
      have hbound : c.toNat ≤ '3'.toNat := of_decide_eq_true hle
      cases h
      rw [Number.digitValue]
      change c.toNat - 48 ≤ 3
      change c.toNat ≤ 51 at hbound
      omega
    · cases h
  · cases h

theorem setLevel_level {text : String} (h : o.setLevel text = .ok o') : o'.level ≤ 3 := by
  rw [setLevel] at h
  split at h
  · rename_i level hlevel
    cases h
    exact level?_le hlevel
  · cases h

theorem set_level {flag : ValueFlag} {value : String} (ho : o.level ≤ 3)
    (h : o.set flag value = .ok o') : o'.level ≤ 3 := by
  cases flag with
  | backend =>
    rw [set] at h
    split at h <;> cases h
    exact ho
  | emit =>
    rw [set] at h
    split at h <;> cases h
    exact ho
  | level => exact setLevel_level h
  | define =>
    rw [set] at h
    split at h
    · cases h
    · split at h <;> cases h
      exact ho

theorem takeAll_level {args : List String} (ho : o.level ≤ 3) (h : o.takeAll args = .ok o') :
    o'.level ≤ 3 := by
  cases args with
  | nil =>
    cases h
    exact ho
  | cons arg rest =>
    rw [takeAll] at h
    split at h <;> cases h
    exact ho

/-- By the recursion over the arguments: a level is set to one that is read, or stays. -/
theorem read_level {args : List String} (ho : o.level ≤ 3) (h : o.read args = .ok o') :
    o'.level ≤ 3 := by
  fun_induction o.read args with
  | case1 o =>
    cases h
    exact ho
  | case2 | case3 | case5 | case7 | case11 | case13 => cases h
  | case4 o arg flag harg value rest o₁ hset ih => exact ih (set_level ho hset) h
  | case6 o arg rest level harg o₁ hset ih => exact ih (setLevel_level hset) h
  | case8 o arg rest harg ih | case9 o arg rest harg ih | case12 o arg rest harg hsource ih =>
    exact ih ho h
  | case10 o arg rest harg =>
    cases hall : o.takeAll rest with
    | error error =>
      rw [hall] at h
      cases h
    | ok o₁ =>
      rw [hall] at h
      cases h
      exact takeAll_level ho hall

theorem checkLevel_of_parse {args : List String} (h : parse args = .ok o) :
    o.engine.checkLevel o.level = .ok () := by
  have hlevel : o.level ≤ 3 := read_level (Nat.zero_le 3) h
  cases hengine : o.engine with
  | bytecode => rfl
  | native =>
    refine if_neg ?_
    omega

theorem scope_functions (o : Options) : ∀ q ∈ o.scope.functions, q ∈ Math.arities := by
  intro q hq
  cases hmath : o.math with
  | false =>
    rw [scope, hmath] at hq
    cases hq
  | true =>
    rw [scope, hmath] at hq
    exact hq

end Options

end ArithCompiler

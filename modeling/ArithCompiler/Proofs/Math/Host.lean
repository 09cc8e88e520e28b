import ArithCompiler.Proofs.Math.Raising

set_option autoImplicit false

/-!
# The host of the routines

A host whose functions are those of the C mathematics library and report their faults by raising.
It raises only what hosts are documented to raise, and over it the functions of the interpreter are
its routines.
-/

namespace ArithCompiler

theorem Bindings.get?_map {α β : Type} (f : α → β) (b : Bindings α) (name : String) :
    get? (b.map fun q => (q.1, f q.2)) name = (b.get? name).map f := by
  induction b with
  | nil => rfl
  | cons q b ih =>
    obtain ⟨n, v⟩ := q
    simp only [get?, List.map_cons, List.lookup_cons] at ih ⊢
    by_cases h : name == n
    · simp only [h, Option.map_some]
    · simpa only [h] using ih

namespace Math

open Number (notANumber positiveInfinity negativeInfinity withSignOf)

def Elementary.host (c : Elementary) : Primitives where
  operate
    | .add, x, y => .ok (x + y)
    | .subtract, x, y => .ok (x - y)
    | .multiply, x, y => .ok (x * y)
    | .divide, x, y => if y == 0.0 then .error .zeroDivision else .ok (x / y)
  sin x := (checked false c.sin x).mapError .ofFault
  cos x := (checked false c.cos x).mapError .ofFault
  tan x := (checked false c.tan x).mapError .ofFault
  asin x := (checked false c.asin x).mapError .ofFault
  acos x := (checked false c.acos x).mapError .ofFault
  atan x := .ok (c.atan x)
  exp x := (checked true c.exp x).mapError .ofFault
  log x := (checked false c.log x).mapError .ofFault
  log10 x := (checked false c.log10 x).mapError .ofFault
  sqrt x := (checked false Float.sqrt x).mapError .ofFault
  fabs x := .ok x.abs
  pow x y := (checkedPower c.pow x y).mapError .ofFault
  atan2 x y := .ok (c.atan2 x y)
  fmod x y :=
    if (x.isInf || y == 0.0) && !x.isNaN && !y.isNaN then .error .domain
    else .ok (Number.remainder x y)

variable (c : Elementary)

theorem ofFault_of_mapError {outcome : Except MathFault Float} {r : Raised}
    (h : outcome.mapError .ofFault = .error r) : r = .domain ∨ r = .overflow := by
  cases outcome with
  | ok v => cases h
  | error fault =>
    cases h
    cases fault with
    | domain => exact .inl rfl
    | overflow => exact .inr rfl

theorem host_documented : c.host.Documented where
  operates op hop x y := by
    cases op with
    | add | subtract | multiply => exact ⟨_, rfl⟩
    | divide => exact absurd rfl hop
  divides x y hy := ⟨_, if_neg hy⟩
  never := by
    simp only [List.forall_mem_cons]
    exact ⟨fun x => ⟨_, rfl⟩, fun x => ⟨_, rfl⟩, nofun⟩
  atan2_never x y := ⟨_, rfl⟩
  fmod_partial x y hx hy := by
    refine ⟨_, if_neg fun h => ?_⟩
    simp only [Bool.and_eq_true, Bool.or_eq_true] at h
    exact h.1.1.elim hx hy
  elsewhere := by
    simp only [List.forall_mem_cons]
    exact ⟨fun _ _ => ofFault_of_mapError, fun _ _ => ofFault_of_mapError,
      fun _ _ => ofFault_of_mapError, fun _ _ => ofFault_of_mapError,
      fun _ _ => ofFault_of_mapError, fun _ _ => ofFault_of_mapError,
      fun _ _ => ofFault_of_mapError, fun _ _ => ofFault_of_mapError,
      fun _ _ => ofFault_of_mapError, nofun⟩
  pow_elsewhere _ _ _ := ofFault_of_mapError

theorem retaken_checked (logarithmic grows : Bool) (f : Float → Float) (x : Float) :
    retaken logarithmic (fun x => (checked grows f x).mapError .ofFault) x
      = .ok (guarded logarithmic (checked grows f) x) := by
  rw [retaken, guarded]
  cases checked grows f x with
  | ok y => rfl
  | error fault => cases fault <;> rfl

theorem host_apply (op : Operator) (x y : Float) : c.host.apply op x y = .ok (op.apply x y) := by
  cases op with
  | add | subtract | multiply => rfl
  | divide =>
    change c.host.quotient x y = .ok (quotient x y)
    rw [Primitives.quotient, quotient]
    by_cases hy : y == 0.0
    · rw [if_pos hy, if_pos hy]
      by_cases hx : (x == 0.0 || x.isNaN) = true
      · rw [if_pos hx, if_pos hx]
      · rw [if_neg hx, if_neg hx]
        rfl
    · rw [if_neg hy, if_neg hy]
      exact if_neg hy

theorem host_remainder (x y : Float) : c.host.remainder x y = .ok (remainder x y) := by
  rw [Primitives.remainder, remainder]
  by_cases h : (y == 0.0 || x.isInf) = true
  · rw [if_pos h, if_pos h]
  · rw [if_neg h, if_neg h]
    refine if_neg fun hraised => h ?_
    simp only [Bool.and_eq_true, Bool.or_eq_true] at hraised ⊢
    exact hraised.1.1.symm

theorem beq_ofInteger_iff {x : Float} {n : Int} (hn : Number.toInteger? .down x = some n) :
    x == Number.ofInteger n ↔ x == Number.toIntegral .down x := by
  have hthrough : throughInteger .down x = Number.ofInteger n := by rw [throughInteger, hn]
  rw [← hthrough, throughInteger_eq]
  by_cases h : Number.toIntegral .down x = -0.0
  · rw [if_pos h, h]
    change (Number.view x).beq (.zero .positive) ↔ (Number.view x).beq (.zero .negative)
    cases Number.view x with
    | notANumber => rfl
    | infinity s => cases s <;> rfl
    | zero s => cases s <;> rfl
    | finite s m e hm => cases s <;> rfl
  · rw [if_neg h]

theorem host_isOddInteger (x : Float) : c.host.isOddInteger x = .ok (Number.isOddInteger x) := by
  rw [Primitives.isOddInteger]
  by_cases hx : x.isFinite
  · obtain ⟨n, hn⟩ := toInteger?_isSome .down hx
    have hinteger : Raised.integer .down x = .ok n := by rw [Raised.integer, hn]
    have hremainder : c.host.fmod x 2.0 = .ok (Number.remainder x 2.0) := by
      refine if_neg fun h => ?_
      simp only [Bool.and_eq_true, Bool.or_eq_true] at h
      exact h.1.1.elim (not_isInf_of_isFinite hx) (by decide)
    have hodd := Number.isOddInteger_iff (d := .down) hx
    rw [← beq_ofInteger_iff hn] at hodd
    rw [if_pos hx, hinteger, hremainder]
    by_cases hintegral : x == Number.ofInteger n
    · refine (if_pos hintegral).trans (congrArg Except.ok ?_)
      rw [Bool.eq_iff_iff, hodd]
      simp [hintegral]
    · refine (if_neg hintegral).trans (congrArg Except.ok ?_)
      rw [eq_comm, Bool.eq_false_iff, ne_eq, hodd]
      exact fun h => hintegral h.1
  · rw [if_neg hx, Number.isOddInteger]
    change ¬ (Number.view x).isFinite = true at hx
    cases hview : Number.view x with
    | notANumber | infinity s | zero s => rfl
    | finite s m e hm =>
      rw [hview] at hx
      exact absurd rfl hx

theorem host_power (x y : Float) : c.host.power x y = .ok (power c.pow x y) := by
  have hpow : c.host.pow x y = (checkedPower c.pow x y).mapError Raised.ofFault := rfl
  rw [Primitives.power, power, host_isOddInteger, hpow]
  cases checkedPower c.pow x y with
  | ok z => rfl
  | error fault =>
    cases fault with
    | domain =>
      by_cases h : (x == 0.0 && y < 0.0) = true
      · exact (if_pos h).trans (congrArg Except.ok (if_pos h).symm)
      · exact (if_neg h).trans (congrArg Except.ok (if_neg h).symm)
    | overflow =>
      by_cases hx : x < 0.0
      · refine (if_pos hx).trans (congrArg Except.ok ?_)
        simp [hx]
      · refine (if_neg hx).trans (congrArg Except.ok ?_)
        simp [hx]

/-! ## The table -/

def Routine.raising (f : Routine) : RaisingRoutine := fun args => Raised.ofRun (f args)

theorem takingOne_raising {name : String} {f : Float → Except Raised Float} {g : Float → Float}
    (h : ∀ x, f x = .ok (g x)) :
    RaisingRoutine.takingOne name f = (name, Routine.raising (unary name g).2) := by
  refine Prod.ext rfl ?_
  funext args
  match args with
  | [x] => exact h x
  | [] | _ :: _ :: _ => rfl

theorem takingTwo_raising {name : String} {f : Float → Float → Except Raised Float}
    {g : Float → Float → Float} (h : ∀ x y, f x y = .ok (g x y)) :
    RaisingRoutine.takingTwo name f = (name, Routine.raising (binary name g).2) := by
  refine Prod.ext rfl ?_
  funext args
  match args with
  | [x, y] => exact h x y
  | [] | [_] | _ :: _ :: _ :: _ => rfl

/-- Over its host the functions of the interpreter are the routines. -/
theorem host_library :
    c.host.library = (routines c).map fun q => (q.1, Routine.raising q.2) := by
  simp only [Primitives.library, routines, List.map_cons, List.map_nil, List.cons.injEq, and_true]
  exact ⟨takingOne_raising (retaken_checked false false c.sin),
    takingOne_raising (retaken_checked false false c.cos),
    takingOne_raising (retaken_checked false false c.tan),
    takingOne_raising (retaken_checked false false c.asin),
    takingOne_raising (retaken_checked false false c.acos),
    takingOne_raising fun _ => rfl,
    takingOne_raising (retaken_checked false true c.exp),
    takingOne_raising (retaken_checked true false c.log),
    takingOne_raising (retaken_checked true false c.log10),
    takingOne_raising (retaken_checked false false Float.sqrt),
    takingOne_raising fun _ => rfl,
    takingOne_raising (throughRaised_eq .down),
    takingOne_raising (throughRaised_eq .up),
    takingTwo_raising (host_power c),
    takingTwo_raising fun _ _ => rfl,
    takingTwo_raising (host_remainder c)⟩

end Math

end ArithCompiler

import ArithCompiler.Backend.Bytecode
import ArithCompiler.Proofs.Number.Parity

set_option autoImplicit false

/-!
# Functions that do not raise

The functions of the interpreter rest on primitives of a host, which raise where they have no number
to give. Each function takes back what is raised there, or does not ask in that case. So whatever
the primitives give, and raise elsewhere, each function gives a number for the right number of
arguments.
-/

namespace ArithCompiler.Math

open Number (Direction notANumber positiveInfinity negativeInfinity withSignOf)

inductive Raised where
  | zeroDivision
  | domain
  | overflow
  /-- A fault of the program itself. -/
  | program (error : RunError)
  deriving DecidableEq, Repr

namespace Raised

def ofRun {α : Type} : Except RunError α → Except Raised α := Except.mapError program

def ofFault : MathFault → Raised
  | .domain => domain
  | .overflow => overflow

/-- The neighbouring integer. An infinity is too large for one, and what is not a number has none. -/
def integer (d : Direction) (x : Float) : Except Raised Int :=
  match Number.toInteger? d x with
  | some n => .ok n
  | none => .error (if x.isNaN then domain else overflow)

def double (n : Int) : Except Raised Float :=
  if (Number.ofInteger n).isInf then .error overflow else .ok (Number.ofInteger n)

end Raised

structure Primitives where
  operate : Operator → Float → Float → Except Raised Float
  sin : Float → Except Raised Float
  cos : Float → Except Raised Float
  tan : Float → Except Raised Float
  asin : Float → Except Raised Float
  acos : Float → Except Raised Float
  atan : Float → Except Raised Float
  exp : Float → Except Raised Float
  log : Float → Except Raised Float
  log10 : Float → Except Raised Float
  sqrt : Float → Except Raised Float
  fabs : Float → Except Raised Float
  pow : Float → Float → Except Raised Float
  atan2 : Float → Float → Except Raised Float
  fmod : Float → Float → Except Raised Float

abbrev RaisingRoutine := List Float → Except Raised Float

namespace RaisingRoutine

def takingOne (name : String) (f : Float → Except Raised Float) : String × RaisingRoutine :=
  (name, fun
    | [x] => f x
    | _ => .error (.program (.wrongArgumentCount name)))

def takingTwo (name : String) (f : Float → Float → Except Raised Float) : String × RaisingRoutine :=
  (name, fun
    | [x, y] => f x y
    | _ => .error (.program (.wrongArgumentCount name)))

end RaisingRoutine

/-- Takes back an overflow and a domain error, and nothing else. -/
def retaken (logarithmic : Bool) (f : Float → Except Raised Float) (x : Float) :
    Except Raised Float :=
  match f x with
  | .error .overflow => .ok positiveInfinity
  | .error .domain => .ok (if logarithmic && x == 0.0 then negativeInfinity else notANumber)
  | outcome => outcome

def throughRaised (d : Direction) (x : Float) : Except Raised Float :=
  if x.isInf || x.isNaN then .ok x
  else do
    let n ← Raised.integer d x
    Raised.double n

namespace Primitives

open RaisingRoutine (takingOne takingTwo)

variable (p : Primitives)

/-! ## The functions of the interpreter -/

def quotient (x y : Float) : Except Raised Float :=
  if y == 0.0 then
    if x == 0.0 || x.isNaN then .ok notANumber
    else p.operate .multiply (withSignOf positiveInfinity x) (withSignOf 1.0 y)
  else p.operate .divide x y

def apply : Operator → Float → Float → Except Raised Float
  | .divide => p.quotient
  | op => p.operate op

def remainder (x y : Float) : Except Raised Float :=
  if y == 0.0 || x.isInf then .ok notANumber else p.fmod x y

/-- Neither the integral part nor the remainder is asked for unless all before it has held. -/
def isOddInteger (x : Float) : Except Raised Bool :=
  if x.isFinite then do
    let n ← Raised.integer .down x
    if x == Number.ofInteger n then
      let r ← p.fmod x 2.0
      return !(r == 0.0)
    else return false
  else return false

def power (x y : Float) : Except Raised Float :=
  match p.pow x y with
  | .error .overflow =>
    if x < 0.0 then do
      let odd ← p.isOddInteger y
      return if odd then negativeInfinity else positiveInfinity
    else return positiveInfinity
  | .error .domain =>
    if x == 0.0 && y < 0.0 then do
      let odd ← p.isOddInteger y
      return if odd then withSignOf positiveInfinity x else positiveInfinity
    else return notANumber
  | outcome => outcome

def library : Bindings RaisingRoutine := [
  takingOne "sin" (retaken false p.sin),
  takingOne "cos" (retaken false p.cos),
  takingOne "tan" (retaken false p.tan),
  takingOne "asin" (retaken false p.asin),
  takingOne "acos" (retaken false p.acos),
  takingOne "atan" p.atan,
  takingOne "exp" (retaken false p.exp),
  takingOne "log" (retaken true p.log),
  takingOne "log10" (retaken true p.log10),
  takingOne "sqrt" (retaken false p.sqrt),
  takingOne "fabs" p.fabs,
  takingOne "floor" (throughRaised .down),
  takingOne "ceil" (throughRaised .up),
  takingTwo "pow" p.power,
  takingTwo "atan2" p.atan2,
  takingTwo "fmod" p.remainder]

/-! ## What the host is documented to raise -/

/-- Where the primitives may raise, and what. Sums, differences and products never do, a quotient
    only by zero, and a remainder only of an infinity or by zero. -/
structure Documented : Prop where
  operates : ∀ op ≠ .divide, ∀ x y, ∃ z, p.operate op x y = .ok z
  divides : ∀ x y, ¬ y == 0.0 → ∃ z, p.operate .divide x y = .ok z
  never : ∀ f ∈ [p.atan, p.fabs], ∀ x, ∃ y, f x = .ok y
  atan2_never : ∀ x y, ∃ z, p.atan2 x y = .ok z
  fmod_partial : ∀ x y, ¬ x.isInf → ¬ y == 0.0 → ∃ z, p.fmod x y = .ok z
  elsewhere : ∀ f ∈ [p.sin, p.cos, p.tan, p.asin, p.acos, p.exp, p.log, p.log10, p.sqrt],
    ∀ x r, f x = .error r → r = .domain ∨ r = .overflow
  pow_elsewhere : ∀ x y r, p.pow x y = .error r → r = .domain ∨ r = .overflow

end Primitives

/-! ## Each function gives a number -/

theorem toInteger?_isSome (d : Direction) {x : Float} (h : x.isFinite) :
    ∃ n, Number.toInteger? d x = some n := by
  change (Number.view x).isFinite = true at h
  rw [Number.toInteger?]
  cases hx : Number.view x with
  | notANumber | infinity s =>
    rw [hx] at h
    cases h
  | zero s => exact ⟨_, rfl⟩
  | finite s m e hm => exact ⟨_, rfl⟩

theorem isFinite_of_neither {x : Float} (h : ¬ (x.isInf || x.isNaN) = true) : x.isFinite := by
  rw [Bool.or_eq_true, Number.isInf_iff, Number.isNaN_iff] at h
  change (Number.view x).isFinite = true
  cases hx : Number.view x with
  | notANumber => exact absurd (.inr hx) h
  | infinity s => exact absurd (.inl ⟨s, hx⟩) h
  | zero s => rfl
  | finite s m e hm => rfl

theorem not_isInf_of_isFinite {x : Float} (h : x.isFinite) : ¬ x.isInf := by
  rw [Number.isInf_iff]
  rintro ⟨s, hs⟩
  change (Number.view x).isFinite = true at h
  rw [hs] at h
  cases h

/-- The integral part of a double is a double, so it can be made one again. -/
theorem throughInteger_not_isInf (d : Direction) {x : Float} (h : x.isFinite) :
    ¬ (throughInteger d x).isInf := by
  have hx := not_isInf_of_isFinite h
  rw [throughInteger_eq]
  by_cases hzero : Number.toIntegral d x = -0.0
  · rw [if_pos hzero]
    decide
  · rw [if_neg hzero, Number.toIntegral]
    cases hview : Number.view x with
    | notANumber | infinity s | zero s => exact hx
    | finite s m e hm =>
      by_cases he : 0 ≤ e
      · simp only [if_pos he]
        exact hx
      · simp only [if_neg he]
        have hlt := integralMagnitude_lt d s (Number.representable_of_view hview).mantissa_lt
          (show e < 0 by omega)
        generalize Number.integralMagnitude d s m e = n at hlt
        rw [Number.isInf_iff]
        rintro ⟨t, ht⟩
        rcases Nat.eq_zero_or_pos n with rfl | hpos
        · cases s <;> cases ht
        · rw [Number.round, Number.round_integer s hpos hlt,
            Number.view_ofView (u := .finite s _ _ _) (Number.representable_integer hpos hlt)] at ht
          cases ht

theorem throughRaised_eq (d : Direction) (x : Float) :
    throughRaised d x = .ok (throughInteger d x) := by
  rw [throughRaised]
  by_cases h : (x.isInf || x.isNaN) = true
  · rw [if_pos h, throughInteger, Number.toInteger?]
    rcases Bool.or_eq_true_iff.1 h with hx | hx
    · obtain ⟨s, hs⟩ := Number.isInf_iff.1 hx
      rw [hs]
    · rw [Number.isNaN_iff.1 hx]
  · have hfinite := isFinite_of_neither h
    obtain ⟨n, hn⟩ := toInteger?_isSome d hfinite
    have hinf := throughInteger_not_isInf d hfinite
    rw [throughInteger, hn] at hinf ⊢
    rw [if_neg h, Raised.integer, hn]
    exact if_neg hinf

theorem retaken_returns {f : Float → Except Raised Float}
    (h : ∀ x r, f x = .error r → r = .domain ∨ r = .overflow) (logarithmic : Bool) (x : Float) :
    ∃ y, retaken logarithmic f x = .ok y := by
  rw [retaken]
  cases hf : f x with
  | ok y => exact ⟨y, rfl⟩
  | error r => rcases h x r hf with rfl | rfl <;> exact ⟨_, rfl⟩

namespace Primitives.Documented

variable {p : Primitives} (h : p.Documented)
include h

theorem quotient (x y : Float) : ∃ z, p.quotient x y = .ok z := by
  rw [Primitives.quotient]
  by_cases hy : y == 0.0
  · rw [if_pos hy]
    by_cases hx : (x == 0.0 || x.isNaN) = true
    · exact ⟨_, if_pos hx⟩
    · rw [if_neg hx]
      exact h.operates .multiply nofun _ _
  · rw [if_neg hy]
    exact h.divides x y hy

theorem apply (op : Operator) (x y : Float) : ∃ z, p.apply op x y = .ok z := by
  cases op with
  | add => exact h.operates .add nofun x y
  | subtract => exact h.operates .subtract nofun x y
  | multiply => exact h.operates .multiply nofun x y
  | divide => exact h.quotient x y

theorem remainder (x y : Float) : ∃ z, p.remainder x y = .ok z := by
  rw [Primitives.remainder]
  by_cases hxy : (y == 0.0 || x.isInf) = true
  · exact ⟨_, if_pos hxy⟩
  · rw [if_neg hxy]
    rw [Bool.or_eq_true, not_or] at hxy
    exact h.fmod_partial x y hxy.2 hxy.1

/-- Only a finite number is divided, and two is not zero. -/
theorem isOddInteger (x : Float) : ∃ b, p.isOddInteger x = .ok b := by
  rw [Primitives.isOddInteger]
  by_cases hx : x.isFinite
  · obtain ⟨n, hn⟩ := toInteger?_isSome .down hx
    obtain ⟨r, hr⟩ := h.fmod_partial x 2.0 (not_isInf_of_isFinite hx) (by decide)
    have hinteger : Raised.integer .down x = .ok n := by rw [Raised.integer, hn]
    rw [if_pos hx, hinteger, hr]
    by_cases hintegral : x == Number.ofInteger n
    · exact ⟨_, if_pos hintegral⟩
    · exact ⟨_, if_neg hintegral⟩
  · exact ⟨_, if_neg hx⟩

theorem power (x y : Float) : ∃ z, p.power x y = .ok z := by
  obtain ⟨odd, hodd⟩ := h.isOddInteger y
  rw [Primitives.power]
  cases hpow : p.pow x y with
  | ok z => exact ⟨z, rfl⟩
  | error r =>
    rcases h.pow_elsewhere x y r hpow with rfl | rfl
    · simp only [hodd]
      by_cases hpole : (x == 0.0 && y < 0.0) = true
      · exact ⟨_, if_pos hpole⟩
      · exact ⟨_, if_neg hpole⟩
    · simp only [hodd]
      by_cases hnegative : x < 0.0
      · exact ⟨_, if_pos hnegative⟩
      · exact ⟨_, if_neg hnegative⟩

end Primitives.Documented

/-! ## The table -/

def Returns (functions : Bindings RaisingRoutine) (name : String) (count : Nat) : Prop :=
  ∃ f, functions.get? name = some f ∧ ∀ args, args.length = count → ∃ v, f args = .ok v

section Returns

variable {functions : Bindings RaisingRoutine} {name : String}

theorem returns_one {f : Float → Except Raised Float}
    (hname : functions.get? name = some (RaisingRoutine.takingOne name f).2)
    (h : ∀ x, ∃ y, f x = .ok y) : Returns functions name 1 := by
  refine ⟨_, hname, fun args hargs => ?_⟩
  obtain ⟨x, rfl⟩ := List.length_eq_one_iff.1 hargs
  exact h x

theorem returns_two {f : Float → Float → Except Raised Float}
    (hname : functions.get? name = some (RaisingRoutine.takingTwo name f).2)
    (h : ∀ x y, ∃ z, f x y = .ok z) : Returns functions name 2 := by
  refine ⟨_, hname, fun args hargs => ?_⟩
  obtain ⟨x, y, rfl⟩ := List.length_eq_two.1 hargs
  exact h x y

end Returns

/-- Every name that a tree can call is in the library with as many parameters, and gives a number
    for as many arguments. -/
theorem Primitives.Documented.library_returns {p : Primitives} (h : p.Documented) {name : String}
    {arity : Int} (hmem : (name, arity) ∈ arities) :
    ∃ n : Nat, arity = n ∧ Returns p.library name n := by
  have elsewhere : ∀ f ∈ [p.sin, p.cos, p.tan, p.asin, p.acos, p.exp, p.log, p.log10, p.sqrt],
      ∀ logarithmic x, ∃ y, retaken logarithmic f x = .ok y := fun f hf =>
    retaken_returns (h.elsewhere f hf)
  have through : ∀ d x, ∃ y, throughRaised d x = .ok y := fun d x => ⟨_, throughRaised_eq d x⟩
  simp only [arities, List.mem_cons, Prod.mk.injEq, List.not_mem_nil, or_false] at hmem
  rcases hmem with ⟨rfl, rfl⟩ | ⟨rfl, rfl⟩ | ⟨rfl, rfl⟩ | ⟨rfl, rfl⟩ | ⟨rfl, rfl⟩ | ⟨rfl, rfl⟩ |
    ⟨rfl, rfl⟩ | ⟨rfl, rfl⟩ | ⟨rfl, rfl⟩ | ⟨rfl, rfl⟩ | ⟨rfl, rfl⟩ | ⟨rfl, rfl⟩ | ⟨rfl, rfl⟩ |
    ⟨rfl, rfl⟩ | ⟨rfl, rfl⟩ | ⟨rfl, rfl⟩
  · exact ⟨1, rfl, returns_one rfl (elsewhere p.sin (by simp) false)⟩
  · exact ⟨1, rfl, returns_one rfl (elsewhere p.cos (by simp) false)⟩
  · exact ⟨1, rfl, returns_one rfl (elsewhere p.tan (by simp) false)⟩
  · exact ⟨1, rfl, returns_one rfl (elsewhere p.asin (by simp) false)⟩
  · exact ⟨1, rfl, returns_one rfl (elsewhere p.acos (by simp) false)⟩
  · exact ⟨1, rfl, returns_one rfl (h.never p.atan (by simp))⟩
  · exact ⟨1, rfl, returns_one rfl (elsewhere p.exp (by simp) false)⟩
  · exact ⟨1, rfl, returns_one rfl (elsewhere p.log (by simp) true)⟩
  · exact ⟨1, rfl, returns_one rfl (elsewhere p.log10 (by simp) true)⟩
  · exact ⟨1, rfl, returns_one rfl (elsewhere p.sqrt (by simp) false)⟩
  · exact ⟨1, rfl, returns_one rfl (h.never p.fabs (by simp))⟩
  · exact ⟨1, rfl, returns_one rfl (through .down)⟩
  · exact ⟨1, rfl, returns_one rfl (through .up)⟩
  · exact ⟨2, rfl, returns_two rfl h.power⟩
  · exact ⟨2, rfl, returns_two rfl h.atan2_never⟩
  · exact ⟨2, rfl, returns_two rfl h.remainder⟩

end ArithCompiler.Math

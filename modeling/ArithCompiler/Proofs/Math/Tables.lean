import ArithCompiler.Backend.Bytecode
import ArithCompiler.Math.Native
import ArithCompiler.Proofs.Math.Guarded

set_option autoImplicit false

/-!
# The routines and the symbols

A routine of the interpreter gives what the symbol of the C library with its name gives, but for the
sign of a zero that comes from rounding to an integer.
-/

namespace ArithCompiler.Math

def integral : List String := ["floor", "ceil"]

/-- The result of a function without the sign of a zero that comes from rounding to an integer. -/
def unsigned (function : String) (result : Float) : Float :=
  if function ∈ integral ∧ result = -0.0 then 0.0 else result

theorem unsigned_eq_self {function : String} {result : Float}
    (h : function ∈ integral → result ≠ -0.0) : unsigned function result = result :=
  if_neg fun hzero => h hzero.1 hzero.2

theorem unsigned_ne {function : String} (h : function ∈ integral) (result : Float) :
    unsigned function result ≠ -0.0 := by
  rw [unsigned]
  by_cases hzero : result = -0.0
  · rw [if_pos ⟨h, hzero⟩]
    decide
  · rw [if_neg fun hresult => hzero hresult.2]
    exact hzero

def symbol (c : Elementary) (function : String) (args : List Float) : Float :=
  ((native? c function).map (· args)).getD Number.notANumber

def unsignedSymbol (c : Elementary) (function : String) (args : List Float) : Float :=
  unsigned function (symbol c function args)

variable {c : Elementary}

theorem routines_isSome (c : Elementary) : ∀ p ∈ arities, ((routines c).get? p.1).isSome := by
  simp only [arities, List.forall_mem_cons]
  exact ⟨rfl, rfl, rfl, rfl, rfl, rfl, rfl, rfl, rfl, rfl, rfl, rfl, rfl, rfl, rfl, rfl, nofun⟩

theorem native?_isSome (c : Elementary) : ∀ p ∈ arities, (native? c p.1).isSome := by
  simp only [arities, List.forall_mem_cons]
  exact ⟨rfl, rfl, rfl, rfl, rfl, rfl, rfl, rfl, rfl, rfl, rfl, rfl, rfl, rfl, rfl, rfl, nofun⟩

def Corresponds (c : Elementary) (function : String) (count : Nat) : Prop :=
  ∀ args, args.length = count →
    Program.invoke (routines c) function args = .ok (unsignedSymbol c function args)

theorem corresponds_unary {function : String} {f g : Float → Float}
    (hroutine : (routines c).get? function = some (unary function g).2)
    (hsymbol : native? c function = some (ofOne f))
    (h : ∀ x, g x = unsigned function (f x)) : Corresponds c function 1 := by
  intro args hargs
  obtain ⟨x, rfl⟩ := List.length_eq_one_iff.1 hargs
  rw [Program.invoke, hroutine, unsignedSymbol, symbol, hsymbol]
  exact congrArg Except.ok (h x)

theorem corresponds_binary {function : String} {f g : Float → Float → Float}
    (hroutine : (routines c).get? function = some (binary function g).2)
    (hsymbol : native? c function = some (ofTwo f))
    (h : ∀ x y, g x y = unsigned function (f x y)) : Corresponds c function 2 := by
  intro args hargs
  match args, hargs with
  | [x, y], _ =>
    rw [Program.invoke, hroutine, unsignedSymbol, symbol, hsymbol]
    exact congrArg Except.ok (h x y)

theorem corresponds_same {function : String} {f g : Float → Float}
    (hroutine : (routines c).get? function = some (unary function g).2)
    (hsymbol : native? c function = some (ofOne f))
    (hfunction : function ∉ integral) (h : g = f) : Corresponds c function 1 :=
  corresponds_unary hroutine hsymbol fun x => by
    rw [h, unsigned_eq_self fun hmem => absurd hmem hfunction]

theorem corresponds_integral {function : String} {d : Number.Direction}
    (hroutine : (routines c).get? function = some (unary function (throughInteger d)).2)
    (hsymbol : native? c function = some (ofOne (Number.toIntegral d)))
    (hfunction : function ∈ integral) : Corresponds c function 1 := by
  refine corresponds_unary hroutine hsymbol fun x => ?_
  rw [throughInteger_eq, unsigned]
  simp only [hfunction, true_and]

theorem corresponds (h : c.Conforms) {function : String} {arity : Int}
    (hmem : (function, arity) ∈ arities) : ∃ n : Nat, arity = n ∧ Corresponds c function n := by
  have bounded : ∀ f ∈ [c.sin, c.cos, c.tan, c.asin, c.acos],
      guarded false (checked false f) = f := fun f hf => guarded_bounded (h.bounded f hf)
  have logarithm : ∀ f ∈ [c.log, c.log10], guarded true (checked false f) = f := fun f hf =>
    guarded_logarithm (h.logarithm_pole f hf) (h.logarithm_bounded f hf)
  simp only [arities, List.mem_cons, Prod.mk.injEq, List.not_mem_nil, or_false] at hmem
  rcases hmem with ⟨rfl, rfl⟩ | ⟨rfl, rfl⟩ | ⟨rfl, rfl⟩ | ⟨rfl, rfl⟩ | ⟨rfl, rfl⟩ | ⟨rfl, rfl⟩ |
    ⟨rfl, rfl⟩ | ⟨rfl, rfl⟩ | ⟨rfl, rfl⟩ | ⟨rfl, rfl⟩ | ⟨rfl, rfl⟩ | ⟨rfl, rfl⟩ | ⟨rfl, rfl⟩ |
    ⟨rfl, rfl⟩ | ⟨rfl, rfl⟩ | ⟨rfl, rfl⟩
  · exact ⟨1, rfl, corresponds_same rfl rfl (by decide) (bounded c.sin (by simp))⟩
  · exact ⟨1, rfl, corresponds_same rfl rfl (by decide) (bounded c.cos (by simp))⟩
  · exact ⟨1, rfl, corresponds_same rfl rfl (by decide) (bounded c.tan (by simp))⟩
  · exact ⟨1, rfl, corresponds_same rfl rfl (by decide) (bounded c.asin (by simp))⟩
  · exact ⟨1, rfl, corresponds_same rfl rfl (by decide) (bounded c.acos (by simp))⟩
  · exact ⟨1, rfl, corresponds_same rfl rfl (by decide) rfl⟩
  · exact ⟨1, rfl, corresponds_same rfl rfl (by decide) (guarded_exponential h.exp_overflow)⟩
  · exact ⟨1, rfl, corresponds_same rfl rfl (by decide) (logarithm c.log (by simp))⟩
  · exact ⟨1, rfl, corresponds_same rfl rfl (by decide) (logarithm c.log10 (by simp))⟩
  · exact ⟨1, rfl, corresponds_same rfl rfl (by decide) (guarded_bounded sqrt_bounded)⟩
  · exact ⟨1, rfl, corresponds_same rfl rfl (by decide) rfl⟩
  · exact ⟨1, rfl, corresponds_integral rfl rfl (by decide)⟩
  · exact ⟨1, rfl, corresponds_integral rfl rfl (by decide)⟩
  · refine ⟨2, rfl, corresponds_binary rfl rfl fun x y => ?_⟩
    rw [power_eq h, unsigned_eq_self fun hmem => absurd hmem (by decide)]
  · refine ⟨2, rfl, corresponds_binary rfl rfl fun x y => ?_⟩
    rw [unsigned_eq_self fun hmem => absurd hmem (by decide)]
  · refine ⟨2, rfl, corresponds_binary rfl rfl fun x y => ?_⟩
    rw [remainder_eq, unsigned_eq_self fun hmem => absurd hmem (by decide)]

end ArithCompiler.Math

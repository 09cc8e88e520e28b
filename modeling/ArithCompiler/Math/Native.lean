import ArithCompiler.Math.Guarded

set_option autoImplicit false

/-!
# Symbols of the C mathematics library

What native code calls. Arguments are passed in order; a function reads as many as it has, and takes
zero for one that was not passed. Which symbols a library has beside those of the elementary
functions is left to the library.
-/

namespace ArithCompiler.Math

open Float.Model (UnpackedFloat Format)
open Float.Model.UnpackedFloat (Sign)
open Number (view ofView)

def ofOne (f : Float → Float) (args : List Float) : Float := f (args[0]?.getD 0.0)

def ofTwo (f : Float → Float → Float) (args : List Float) : Float :=
  f (args[0]?.getD 0.0) (args[1]?.getD 0.0)

def ofThree (f : Float → Float → Float → Float) (args : List Float) : Float :=
  f (args[0]?.getD 0.0) (args[1]?.getD 0.0) (args[2]?.getD 0.0)

def native? (c : Elementary) : String → Option (List Float → Float)
  | "sin" => some (ofOne c.sin)
  | "cos" => some (ofOne c.cos)
  | "tan" => some (ofOne c.tan)
  | "asin" => some (ofOne c.asin)
  | "acos" => some (ofOne c.acos)
  | "atan" => some (ofOne c.atan)
  | "exp" => some (ofOne c.exp)
  | "log" => some (ofOne c.log)
  | "log10" => some (ofOne c.log10)
  | "sqrt" => some (ofOne Float.sqrt)
  | "fabs" => some (ofOne Float.abs)
  | "floor" => some (ofOne (Number.toIntegral .down))
  | "ceil" => some (ofOne (Number.toIntegral .up))
  | "pow" => some (ofTwo c.pow)
  | "atan2" => some (ofTwo c.atan2)
  | "fmod" => some (ofTwo Number.remainder)
  | name => c.others name

/-! ## The library of the platform -/

/-- The length of the hypotenuse, rounded once. An infinite leg makes it infinite. -/
def hypotenuse (x y : Float) : Float :=
  match view x, view y with
  | .infinity _, _ | _, .infinity _ => Number.positiveInfinity
  | .notANumber, _ | _, .notANumber => Number.notANumber
  | .zero _, _ => y.abs
  | _, .zero _ => x.abs
  | .finite _ m e _, .finite _ n f _ =>
    let unit := min e f
    let a := m * 2 ^ (e - unit).toNat
    let b := n * 2 ^ (f - unit).toNat
    let square := a * a + b * b
    if h : 0 < square then
      ofView (UnpackedFloat.sqrt Format.binary64 (.finite .positive square (2 * unit) h))
    else 0.0

/-- The greater of two numbers; what is not a number gives way to the other. -/
def greater (x y : Float) : Float :=
  if x.isNaN then y else if y.isNaN then x else if y < x then x else y

/-- `x · y + z`, rounded once. -/
def fusedMultiplyAdd (x y z : Float) : Float :=
  match view x, view y, view z with
  | .finite s m e _, .finite t n f _, .finite u k g _ =>
    let unit := min (e + f) g
    let a := (s * t).apply (m * n * 2 ^ (e + f - unit).toNat : Nat)
    let b := u.apply (k * 2 ^ (g - unit).toNat : Nat)
    ofView (UnpackedFloat.normalize Format.binary64 (a + b) unit .positive)
  | .finite _ _ _ _, .finite _ _ _ _, .zero _ => x * y
  | .finite _ _ _ _, .finite _ _ _ _, .infinity _ => z
  | _, _, _ => x * y + z

/-- The library at hand. Of its further functions, those that can be computed here. -/
def Elementary.platform : Elementary where
  sin := Float.sin
  cos := Float.cos
  tan := Float.tan
  asin := Float.asin
  acos := Float.acos
  atan := Float.atan
  exp := Float.exp
  log := Float.log
  log10 := Float.log10
  pow := Float.pow
  atan2 := Float.atan2
  others
    | "sinh" => some (ofOne Float.sinh)
    | "cosh" => some (ofOne Float.cosh)
    | "tanh" => some (ofOne Float.tanh)
    | "asinh" => some (ofOne Float.asinh)
    | "acosh" => some (ofOne Float.acosh)
    | "atanh" => some (ofOne Float.atanh)
    | "exp2" => some (ofOne Float.exp2)
    | "log2" => some (ofOne Float.log2)
    | "cbrt" => some (ofOne Float.cbrt)
    | "round" => some (ofOne Float.round)
    | "trunc" => some (ofOne (Number.toIntegral .towardZero))
    | "hypot" => some (ofTwo hypotenuse)
    | "fmax" => some (ofTwo greater)
    | "fma" => some (ofThree fusedMultiplyAdd)
    | _ => none

end ArithCompiler.Math

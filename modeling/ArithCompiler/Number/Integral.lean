import ArithCompiler.Number.Binary

set_option autoImplicit false

/-!
# Integral parts and remainders

Rounding to an integer, parity and the remainder of a division, computed exactly from mantissa and
exponent. A result of zero keeps the sign of the argument.
-/

namespace ArithCompiler.Number

open Float.Model (UnpackedFloat)
open Float.Model.UnpackedFloat (Sign)

inductive Direction where
  | down
  | up
  | towardZero
  deriving DecidableEq, Repr

/-- Whether the magnitude of an inexact number grows. -/
def Direction.growsMagnitude : Direction → Sign → Bool
  | .down, .negative => true
  | .up, .positive => true
  | _, _ => false

/-- The integer magnitude of `m · 2 ^ e`, rounded in the direction. -/
def integralMagnitude (d : Direction) (s : Sign) (m : Nat) (e : Int) : Nat :=
  if 0 ≤ e then m * 2 ^ e.toNat
  else
    let unit := 2 ^ (-e).toNat
    m / unit + if m % unit ≠ 0 && d.growsMagnitude s then 1 else 0

def toIntegral (d : Direction) (x : Float) : Float :=
  match view x with
  | .finite s m e _ => if 0 ≤ e then x else round s (integralMagnitude d s m e) 0
  | _ => x

/-- The neighbouring integer; nothing for an infinity and for what is not a number. -/
def toInteger? (d : Direction) (x : Float) : Option Int :=
  match view x with
  | .finite s m e _ => some (s.apply (integralMagnitude d s m e))
  | .zero _ => some 0
  | _ => none

def isOddInteger (x : Float) : Bool :=
  match view x with
  | .finite _ m e _ =>
    if 0 ≤ e then e == 0 && m % 2 == 1
    else
      let unit := 2 ^ (-e).toNat
      m % unit == 0 && m / unit % 2 == 1
  | _ => false

/-- What is left of the first after taking away the second as often as it fits, with the sign of the
    first. There is no remainder of an infinity or by zero. -/
def remainder (x y : Float) : Float :=
  match view x, view y with
  | .notANumber, _ | _, .notANumber => notANumber
  | .infinity _, _ | _, .zero _ => notANumber
  | .zero _, _ | _, .infinity _ => x
  | .finite s m e _, .finite _ n f _ =>
    let unit := min e f
    let a := m * 2 ^ (e - unit).toNat
    let b := n * 2 ^ (f - unit).toNat
    round s (a % b) unit

end ArithCompiler.Number

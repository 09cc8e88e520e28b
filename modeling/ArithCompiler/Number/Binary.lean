set_option autoImplicit false

/-!
# Binary numbers

A double is looked at as a sign, a mantissa and an exponent, as an infinity, or as not a number.
The operations here are exact in that view; whoever leaves the range of a double rounds to the
nearest one, ties to the even mantissa. There is one double that is not a number: its sign and its
payload are not looked at anywhere.
-/

namespace ArithCompiler.Number

open Float.Model (UnpackedFloat Format)
open Float.Model.UnpackedFloat (Sign)

-- the powers are those of the natural numbers themselves, whatever else is imported
attribute [instance (100000), default_instance 100000] instPowNat

def view (x : Float) : UnpackedFloat := x.toModel.unpack

/-- The double nearest to what is viewed, which has at most 53 bits if it is finite. -/
def ofView (u : UnpackedFloat) : Float := .ofModel (.pack u)

def positiveInfinity : Float := ofView (.infinity .positive)

def negativeInfinity : Float := ofView (.infinity .negative)

def notANumber : Float := ofView .notANumber

/-- The sign of a viewed number; what is not a number counts as positive. -/
def signOf : UnpackedFloat → Sign
  | .infinity s => s
  | .notANumber => .positive
  | .zero s => s
  | .finite s _ _ _ => s

/-- Whether the sign is a minus, zeros and infinities included. -/
def isNegative (x : Float) : Bool :=
  match signOf (view x) with
  | .negative => true
  | .positive => false

/-- The magnitude of the first with the sign of the second. -/
def withSignOf (x y : Float) : Float := if isNegative y then -x.abs else x.abs

/-- The double nearest to `s · m · 2 ^ e`; a zero keeps the sign. -/
def round (s : Sign) (m : Nat) (e : Int) : Float :=
  ofView (UnpackedFloat.round Format.binary64 s m e)

/-- The double nearest to an integer, ties to even. Zero has no minus sign. -/
def ofInteger (n : Int) : Float := .ofModel (.ofInt n)

end ArithCompiler.Number

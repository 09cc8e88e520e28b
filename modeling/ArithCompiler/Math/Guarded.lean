import ArithCompiler.Number.Integral

set_option autoImplicit false

/-!
# Mathematical functions that report faults, and their recovery

The elementary functions are those of the C mathematics library. A checked function reports a domain
error instead of giving what is not a number, and an overflow instead of an infinity. A guarded
function takes the report back and gives the value that the C library gives.
-/

namespace ArithCompiler.Math

open Number (isNegative isOddInteger notANumber positiveInfinity negativeInfinity withSignOf)

/-- A C mathematics library: the elementary functions, and what else it has a symbol for. -/
structure Elementary where
  sin : Float → Float
  cos : Float → Float
  tan : Float → Float
  asin : Float → Float
  acos : Float → Float
  atan : Float → Float
  exp : Float → Float
  log : Float → Float
  log10 : Float → Float
  pow : Float → Float → Float
  atan2 : Float → Float → Float
  others : String → Option (List Float → Float)

inductive MathFault where
  | domain
  | overflow
  deriving DecidableEq, Repr

/-- Reports a result that is not a number unless the argument was none, and an infinite result of a
    finite argument. Only a function that grows without bound overflows; elsewhere an infinity is a
    pole. -/
def checked (grows : Bool) (f : Float → Float) (x : Float) : Except MathFault Float :=
  let y := f x
  if y.isNaN && !x.isNaN then .error .domain
  else if y.isInf && x.isFinite then .error (if grows then .overflow else .domain)
  else .ok y

/-- Reports a power of finite numbers that is not finite; at base zero it is a pole. -/
def checkedPower (pow : Float → Float → Float) (x y : Float) : Except MathFault Float :=
  let z := pow x y
  if x.isFinite && y.isFinite then
    if z.isNaN then .error .domain
    else if z.isInf then .error (if x == 0.0 then .domain else .overflow)
    else .ok z
  else .ok z

/-- Takes a report back: an overflow is an infinity, and a domain error is not a number, except for
    a logarithm at zero. -/
def guarded (logarithmic : Bool) (f : Float → Except MathFault Float) (x : Float) : Float :=
  match f x with
  | .ok y => y
  | .error .overflow => positiveInfinity
  | .error .domain => if logarithmic && x == 0.0 then negativeInfinity else notANumber

/-- Division that never fails: by zero it gives an infinity with the sign of the quotient, or what
    is not a number. -/
def quotient (x y : Float) : Float :=
  if y == 0.0 then
    if x == 0.0 || x.isNaN then notANumber
    else withSignOf positiveInfinity x * withSignOf 1.0 y
  else x / y

/-- The remainder with the sign of the first number. -/
def remainder (x y : Float) : Float :=
  if y == 0.0 || x.isInf then notANumber else Number.remainder x y

/-- A power whose reports are taken back: an overflow has the sign of the base for odd exponents,
    and so has the pole at zero. -/
def power (pow : Float → Float → Float) (x y : Float) : Float :=
  match checkedPower pow x y with
  | .ok z => z
  | .error .overflow => if x < 0.0 && isOddInteger y then negativeInfinity else positiveInfinity
  | .error .domain =>
    if x == 0.0 && y < 0.0 then
      if isOddInteger y then withSignOf positiveInfinity x else positiveInfinity
    else notANumber

/-- The neighbouring integer by way of the integers, which have one zero. -/
def throughInteger (d : Number.Direction) (x : Float) : Float :=
  match Number.toInteger? d x with
  | some n => Number.ofInteger n
  | none => x

end ArithCompiler.Math

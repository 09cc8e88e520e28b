import ArithCompiler.Number.Decimal
import ArithCompiler.Number.Notation

set_option autoImplicit false

/-!
# The shortest text of a double

A finite double is written with the fewest digits that read back as the same double, and with the
digits nearest to it among those. The search tries the two neighbours of the number on the grid of
one digit, of two, and so on up to seventeen, which are enough for every double; what it returns
has been read back.
-/

namespace ArithCompiler.Number

open Float.Model (UnpackedFloat)

/-- The positive fraction `m · 2 ^ e`. -/
structure Ratio where
  num : Nat
  den : Nat

def Ratio.ofBinary (m : Nat) (e : Int) : Ratio :=
  ⟨m * 2 ^ e.toNat, 2 ^ (-e).toNat⟩

/-- The place of the point: `10 ^ (point - 1) ≤ r < 10 ^ point`. -/
def Ratio.point (r : Ratio) : Int :=
  if r.den ≤ r.num then (digitsOf (r.num / r.den)).length
  else 1 - (digitsOf ((r.den - 1) / r.num)).length

/-- The multiples of `10 ^ place` next to the number, as multiples, the nearer one first and of two
    equally near ones the even one. -/
def Ratio.neighbours (r : Ratio) (place : Int) : List Nat :=
  let num := r.num * 10 ^ (-place).toNat
  let den := r.den * 10 ^ place.toNat
  let below := num / den
  let twice := 2 * (num % den)
  if twice < den || (twice == den && below % 2 == 0) then [below, below + 1]
  else [below + 1, below]

/-- `n · 10 ^ place` without the zeros at its end. -/
def writeMultiple (form : Notation) (n : Nat) (place : Int) : List Char :=
  let digits := digitsOf n
  form.write (digits.reverse.dropWhile (· == '0')).reverse (digits.length + place)

/-- The texts with this many digits that may stand for the number, the nearer one first. -/
def candidates (form : Notation) (r : Ratio) (count : Nat) : List (List Char) :=
  let place := r.point - count
  (r.neighbours place).map (writeMultiple form · place)

/-- All digits of `m · 2 ^ e`, as an integer or an integer over a power of ten. -/
def exactText (m : Nat) (e : Int) : List Char :=
  if 0 ≤ e then digitsOf (m * 2 ^ e.toNat)
  else digitsOf (m * 5 ^ (-e).toNat) ++ 'e' :: '-' :: digitsOf (-e).toNat

def readsBack (x : Float) (text : List Char) : Bool := decide (ofNumeral? text = some x)

/-- The text of the positive double `x`, which is `m · 2 ^ e`. -/
def shortestText (form : Notation) (x : Float) (m : Nat) (e : Int) : List Char :=
  let r := Ratio.ofBinary m e
  ((List.range 17).findSome? fun i => (candidates form r (i + 1)).find? (readsBack x)).getD
    (exactText m e)

def magnitudeText (form : Notation) (x : Float) : List Char :=
  match view x with
  | .notANumber => ['n', 'a', 'n']
  | .infinity _ => ['i', 'n', 'f']
  | .zero _ => form.write ['0'] 1
  | .finite _ m e _ => shortestText form x.abs m e

/-- The text of a double; what is not a number has no sign. -/
def chars (x : Float) : List Char :=
  if isNegative x then '-' :: magnitudeText standard x else magnitudeText standard x

def text (x : Float) : String := String.ofList (chars x)

theorem toList_text (x : Float) : (text x).toList = chars x := String.toList_ofList

end ArithCompiler.Number

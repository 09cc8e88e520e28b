set_option autoImplicit false

/-!
# Positional and scientific notation

How a run of significant digits and the place of its point are written down.
-/

namespace ArithCompiler.Number

/-- Which powers of ten are written out, and how many digits an exponent has at least. -/
structure Notation where
  leastPositional : Int
  leastScientific : Int
  exponentWidth : Nat

/-- Numbers from 0.0001 up to below 10 ^ 16 are positional, with a digit on both sides of the point;
    an exponent has a sign and two digits. -/
def standard : Notation := ⟨-4, 16, 2⟩

def digitsOf (n : Nat) : List Char := Nat.toDigits 10 n

/-- `0.d₁d₂… · 10 ^ point` with the powers of ten written out. -/
def positional (digits : List Char) (point : Int) : List Char :=
  if point ≤ 0 then '0' :: '.' :: List.replicate (-point).toNat '0' ++ digits
  else
    let whole := point.toNat
    if digits.length ≤ whole then
      digits ++ List.replicate (whole - digits.length) '0' ++ ['.', '0']
    else digits.take whole ++ '.' :: digits.drop whole

def exponentText (width : Nat) (exponent : Int) : List Char :=
  let digits := digitsOf exponent.natAbs
  (if exponent < 0 then '-' else '+') :: List.replicate (width - digits.length) '0' ++ digits

/-- One digit before the point, and no point when nothing follows it. -/
def scientific (width : Nat) (digits : List Char) (point : Int) : List Char :=
  let fraction := match digits.drop 1 with
    | [] => []
    | rest => '.' :: rest
  digits.take 1 ++ fraction ++ 'e' :: exponentText width (point - 1)

/-- `0.d₁d₂… · 10 ^ point` in the form that the size of the number asks for. -/
def Notation.write (n : Notation) (digits : List Char) (point : Int) : List Char :=
  if n.leastPositional ≤ point - 1 ∧ point - 1 < n.leastScientific then positional digits point
  else scientific n.exponentWidth digits point

end ArithCompiler.Number

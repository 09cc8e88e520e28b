import ArithCompiler.Number.Binary
import ArithCompiler.Text.Digit

set_option autoImplicit false

/-!
# Reading decimal numbers

A decimal numeral has digits, an optional fraction and an optional exponent, and stands for the
double nearest to it. The wide form admits blanks around it, a sign, digits of all scripts, single
underscores between digits, and the names of the infinities and of what is not a number.
-/

namespace ArithCompiler.Number

/-- The number `digits · 10 ^ exponent`. -/
structure Decimal where
  digits : Nat
  exponent : Int
  deriving DecidableEq, Repr

/-- The nearest double, ties to even; beyond the largest one an infinity. -/
def Decimal.toFloat (d : Decimal) : Float := .ofModel (.ofScientific d.digits d.exponent)

def isDigit (c : Char) : Bool := '0' ≤ c && c ≤ '9'

def digitValue (c : Char) : Nat := c.toNat - '0'.toNat

def ofDigits (cs : List Char) : Nat := cs.foldl (fun n c => 10 * n + digitValue c) 0

/-- The exponent part up to the end of the text: nothing, or `e`, an optional sign and digits. -/
def exponent? : List Char → Option Int
  | [] => some 0
  | c :: cs =>
    if c == 'e' || c == 'E' then
      match cs with
      | '-' :: ds => if ds ≠ [] && ds.all isDigit then some (-(ofDigits ds : Int)) else none
      | '+' :: ds => if ds ≠ [] && ds.all isDigit then some (ofDigits ds) else none
      | ds => if ds ≠ [] && ds.all isDigit then some (ofDigits ds) else none
    else none

/-- A numeral without sign: digits before the point, after it, or on both sides. -/
def decimal? (cs : List Char) : Option Decimal :=
  let whole := cs.takeWhile isDigit
  let rest := cs.dropWhile isDigit
  let (fraction, tail) := match rest with
    | '.' :: r => (r.takeWhile isDigit, r.dropWhile isDigit)
    | r => ([], r)
  if whole = [] && fraction = [] then none
  else (exponent? tail).map fun e => ⟨ofDigits (whole ++ fraction), e - fraction.length⟩

def ofNumeral? (cs : List Char) : Option Float := (decimal? cs).map Decimal.toFloat

def lowerCase (cs : List Char) : List Char := cs.map Char.toLower

def magnitude? (cs : List Char) : Option Float :=
  let word := String.ofList (lowerCase cs)
  if word == "inf" || word == "infinity" then some positiveInfinity
  else if word == "nan" then some notANumber
  else ofNumeral? cs

def signed? : List Char → Option Float
  | '-' :: cs => (magnitude? cs).map (-·)
  | '+' :: cs => magnitude? cs
  | cs => magnitude? cs

/-- The blanks that may surround a number. The separators U+001C to U+001F are not among them. -/
def isBlank (c : Char) : Bool :=
  c == ' ' || (0x09 ≤ c.toNat && c.toNat ≤ 0x0d) || c.toNat == 0x85 || c.toNat == 0xa0
    || c.toNat == 0x1680 || (0x2000 ≤ c.toNat && c.toNat ≤ 0x200a) || c.toNat == 0x2028
    || c.toNat == 0x2029 || c.toNat == 0x202f || c.toNat == 0x205f || c.toNat == 0x3000

def trim (cs : List Char) : List Char :=
  ((cs.dropWhile isBlank).reverse.dropWhile isBlank).reverse

/-- The digits of all scripts as ASCII ones. -/
def asciiDigit (c : Char) : Char :=
  match Text.decimalValue? c with
  | some v => Char.ofNat ('0'.toNat + v)
  | none => c

/-- Drops underscores; each has to stand between two digits. -/
def joinGroups? : List Char → Option (List Char)
  | [] => some []
  | '_' :: _ => none
  | c :: '_' :: d :: rest =>
    if isDigit c && isDigit d then (joinGroups? (d :: rest)).map (c :: ·) else none
  | c :: rest => (joinGroups? rest).map (c :: ·)

/-- Reads the wide form. -/
def ofText? (text : String) : Option Float :=
  (joinGroups? ((trim text.toList).map asciiDigit)).bind signed?

end ArithCompiler.Number

import ArithCompiler.Text.Printable

set_option autoImplicit false

/-!
# Quoted texts

A quoted text stands between single quotes, or between double quotes when it holds a single quote
and no double one. The quote in use and the backslash get a backslash, line feed, carriage return
and tab their letter, and any other character that is not printable its code point in hexadecimal.
-/

namespace ArithCompiler.Text

def singleQuote : Char := Char.ofNat 0x27

def doubleQuote : Char := Char.ofNat 0x22

/-- Hexadecimal digits in lower case, filled up with zeros to the width. -/
def hex (width n : Nat) : List Char :=
  let digits := Nat.toDigits 16 n
  List.replicate (width - digits.length) '0' ++ digits

/-- Two digits below U+0100, four below U+10000, eight from there on. -/
def escapeCodePoint (c : Char) : List Char :=
  if c.toNat < 0x100 then '\\' :: 'x' :: hex 2 c.toNat
  else if c.toNat < 0x10000 then '\\' :: 'u' :: hex 4 c.toNat
  else '\\' :: 'U' :: hex 8 c.toNat

def escapeChar (mark c : Char) : List Char :=
  if c == mark || c == '\\' then ['\\', c]
  else if c == '\n' then ['\\', 'n']
  else if c == '\r' then ['\\', 'r']
  else if c == '\t' then ['\\', 't']
  else if isPrintable c then [c]
  else escapeCodePoint c

def quoteMark (cs : List Char) : Char :=
  if cs.contains singleQuote && !cs.contains doubleQuote then doubleQuote else singleQuote

def quoteChars (cs : List Char) : List Char :=
  let mark := quoteMark cs
  mark :: cs.flatMap (escapeChar mark) ++ [mark]

def quoted (text : String) : String := String.ofList (quoteChars text.toList)

end ArithCompiler.Text

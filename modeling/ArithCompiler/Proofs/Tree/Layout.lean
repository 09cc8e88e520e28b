import ArithCompiler.Token.Lexer
import ArithCompiler.Tree.Printer

set_option autoImplicit false

/-!
# The layout of a text

The text of a tree, character by character, put together from the texts of its parts.
-/

namespace ArithCompiler

namespace Operator

def character : Operator → Char
  | add => '+'
  | subtract => '-'
  | multiply => '*'
  | divide => '/'

theorem symbol_eq (op : Operator) : op.symbol = String.ofList [op.character] := by
  cases op <;> rfl

theorem character_mem (op : Operator) : op.character ∈ Lexer.symbols := by
  cases op <;> decide

theorem character_ne (op : Operator) : op.character ≠ '(' ∧ op.character ≠ ')' := by
  cases op <;> decide

end Operator

namespace Tree

def opening (needed : Bool) : List Char := if needed then ['('] else []

def closing (needed : Bool) : List Char := if needed then [')'] else []

def operandChars (needed : Bool) (e : Expr) : List Char :=
  opening needed ++ (e.toSource.toList ++ closing needed)

def leading (front : List Expr) : List Char := front.flatMap fun a => a.toSource.toList ++ [',', ' ']

def trailing (back : List Expr) : List Char := back.flatMap fun a => ',' :: ' ' :: a.toSource.toList

theorem toList_parenthesized (needed : Bool) (text : String) :
    (parenthesized needed text).toList = opening needed ++ (text.toList ++ closing needed) := by
  cases needed with
  | false => simp [parenthesized, opening, closing]
  | true => simp [parenthesized, opening, closing]

theorem toList_binary (op : Operator) (l r : Expr) :
    (toSource (.binary op l r)).toList = operandChars (l.level < op.level) l
      ++ ' ' :: op.character :: ' ' :: operandChars (r.level ≤ op.level) r := by
  rw [toSource, op.symbol_eq]
  simp [toList_parenthesized, operandChars]

theorem toList_call (f : String) (args : List Expr) :
    (toSource (.call f args)).toList = f.toList ++ '(' :: ((sourceList args).toList ++ [')']) := by
  rw [toSource]
  simp

theorem sourceList_cons_cons (a b : Expr) (args : List Expr) :
    sourceList (a :: b :: args) = a.toSource ++ ", " ++ sourceList (b :: args) := by
  rw [sourceList]
  exact List.cons_ne_nil b args

theorem toList_sourceList (args : List Expr) :
    (sourceList args).toList = [',', ' '].intercalate (args.map fun a => a.toSource.toList) := by
  induction args with
  | nil => rfl
  | cons a args ih =>
    cases args with
    | nil => simp [sourceList]
    | cons b args =>
      rw [List.map_cons] at ih
      rw [sourceList_cons_cons, List.map_cons, List.map_cons, List.intercalate_cons_cons, ← ih]
      simp

theorem toList_sourceList_cons (a : Expr) (back : List Expr) :
    (sourceList (a :: back)).toList = a.toSource.toList ++ trailing back := by
  induction back generalizing a with
  | nil => rw [sourceList, trailing, List.flatMap_nil, List.append_nil]
  | cons b back ih =>
    rw [sourceList_cons_cons, String.toList_append, ih, trailing, trailing, List.flatMap_cons]
    simp

end Tree

end ArithCompiler

import ArithCompiler.Backend.Contract
import ArithCompiler.Math.Library

set_option autoImplicit false

/-!
# Resolving names

Constants and functions live in namespaces of their own. A name becomes a constant of the unit; a
call of a known function with the right number of arguments is left to the backend to bind.
-/

namespace ArithCompiler

structure Scope where
  constants : Bindings Float
  functions : Bindings Int
  deriving DecidableEq

namespace Scope

def empty : Scope := ⟨[], []⟩

def math : Scope := ⟨Math.constants, Math.arities⟩

def define (s : Scope) (name : String) (value : Float) : Scope :=
  { s with constants := s.constants.set name value }

def defineAll (s : Scope) (pairs : List (String × Float)) : Scope :=
  { s with constants := s.constants.setAll pairs }

def admit? (s : Scope) (name : String) (count : Nat) : Except Fault Unit :=
  match s.functions.get? name with
  | none => .error (.unsupported (.unknownFunction name))
  | some arity =>
    if (count : Int) = arity then .ok ()
    else .error (.unsupported (.wrongArity name arity count))

end Scope

/-- How names are resolved: not at all, by refusing each, or in a scope. -/
inductive Resolver where
  | missing
  | refusing
  | scope (s : Scope)
  deriving DecidableEq

namespace Resolver

variable {σ ν υ : Type}

/-- Only a scope takes definitions. -/
def define? (name : String) (value : Float) : Resolver → Option Resolver
  | scope s => some (scope (s.define name value))
  | missing | refusing => none

def ident (r : Resolver) (t : Target σ ν υ) (name : String) : Step (Backend σ) ν :=
  match r with
  | missing | refusing => throw (.unbound name)
  | scope s =>
    match s.constants.get? name with
    | none => throw (.unbound name)
    | some value => Backend.const t value

def call (r : Resolver) (t : Target σ ν υ) (name : String) (args : List ν) :
    Step (Backend σ) ν :=
  match r with
  | missing => throw (.unsupported (.callWithoutResolver name))
  | refusing => throw (.unsupported (.refusedCall name))
  | scope s => do
    s.admit? name args.length
    Backend.call t name args

end Resolver

end ArithCompiler

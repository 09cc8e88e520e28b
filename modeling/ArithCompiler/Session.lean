import ArithCompiler.Engine

set_option autoImplicit false

/-!
# Using a compiler again and again

A session keeps one compiler over many compilations. Names can be defined in its scope, and it can
be given a fresh backend; a backend that is not idle refuses to begin another unit. Of the operands
that a failed compilation leaves only the number is kept, since the next one starts without any.
-/

namespace ArithCompiler

structure Session where
  engine : Engine
  backend : Backend engine.State
  residue : Nat
  resolver : Resolver
  imbalance : Imbalance

namespace Session

variable {φ : Type} [Alien φ]

def start (engine : Engine) (resolver : Resolver) (imbalance : Imbalance) : Session :=
  ⟨engine, .fresh engine.initial, 0, resolver, imbalance⟩

def compile (s : Session) (t : Tree φ) : Except Fault Report × Session :=
  let result := ((s.engine.compiler s.resolver s.imbalance).compile t).runOn ⟨s.backend, [], []⟩
  (result.1.map (s.engine.report result.2.backend.state),
    { s with backend := result.2.backend, residue := result.2.stack.length })

def define? (s : Session) (name : String) (value : Float) : Option Session :=
  (s.resolver.define? name value).map fun resolver => { s with resolver }

def refresh (s : Session) (engine : Engine) : Session :=
  ⟨engine, .fresh engine.initial, s.residue, s.resolver, s.imbalance⟩

end Session

end ArithCompiler

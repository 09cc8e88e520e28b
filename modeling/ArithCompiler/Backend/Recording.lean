import ArithCompiler.Backend.Contract

set_option autoImplicit false

/-!
# Recording and empty targets

The recording target keeps a log of what it was asked for, gives out numbered registers, and refuses
nothing: whatever stands in the place of a register goes into the log. The empty target has no hooks
at all.
-/

namespace ArithCompiler

inductive Event where
  | create (name : String) (signature : Signature)
  | position
  | const (value : Float) (dest : Handle)
  | binary (op : Operator) (left right dest : Handle)
  | call (name : String) (args : List Handle) (dest : Handle)
  | ret (value : Handle)
  | finalize
  deriving DecidableEq

/-- The log in order, and how many values were given out. -/
structure Recording where
  log : List Event
  count : Nat
  deriving DecidableEq

namespace Recording

def empty : Recording := ⟨[], 0⟩

def record (e : Event) : Step Recording Unit := modify fun r => { r with log := r.log ++ [e] }

def emit (e : Handle → Event) : Step Recording Handle := do
  let r ← get
  let dest := Handle.register r.count
  set (⟨r.log ++ [e dest], r.count + 1⟩ : Recording)
  return dest

def target : Target Recording Handle (List Event) where
  create name signature := record (.create name signature)
  position := record .position
  const value := emit (.const value)
  binary op left right := emit (.binary op left right)
  call name args := emit (.call name args)
  ret value := record (.ret value)
  finalize _ := do
    record .finalize
    let r ← get
    return r.log

end Recording

def Target.missing {σ ν υ : Type} : Target σ ν υ where
  create _ _ := throw .hookMissing
  position := throw .hookMissing
  const _ := throw .hookMissing
  binary _ _ _ := throw .hookMissing
  call _ _ := throw .hookMissing
  ret _ := throw .hookMissing
  finalize _ := throw .hookMissing

end ArithCompiler

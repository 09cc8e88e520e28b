import ArithCompiler.Step

set_option autoImplicit false

/-!
# The contract of a backend

A unit is created, its body is opened, filled with operations and closed with a return, and then it
is finalized. A target says how each step is carried out on its own state; the contract admits a
step only in its phase. A hook that fails leaves phase and name of the unit as they were.
-/

namespace ArithCompiler

/-- How code is made: `σ` is the state of a unit under construction, `ν` the handle of a value, and
    `υ` the finished unit. -/
structure Target (σ ν υ : Type) where
  create : String → Signature → Step σ Unit
  position : Step σ Unit
  const : Float → Step σ ν
  binary : Operator → ν → ν → Step σ ν
  call : String → List ν → Step σ ν
  ret : ν → Step σ Unit
  finalize : String → Step σ υ

structure Backend (σ : Type) where
  phase : Phase
  unitName : String
  state : σ

namespace Backend

variable {σ ν υ α : Type}

def fresh (state : σ) : Backend σ := ⟨.idle, "", state⟩

def hook (step : Step σ α) : Step (Backend σ) α :=
  step.within (·.state) fun state b => { b with state }

def require (action : Action) (expected : Phase) : Step (Backend σ) Unit := do
  let b ← get
  if b.phase ≠ expected then throw (.backend (.wrongPhase action b.phase expected))

def enter (phase : Phase) : Step (Backend σ) Unit := modify fun b => { b with phase }

@[simp]
theorem hook_runOn (step : Step σ α) (b : Backend σ) :
    (hook step).runOn b = ((step.runOn b.state).1, { b with state := (step.runOn b.state).2 }) :=
  rfl

@[simp]
theorem require_runOn (action : Action) (expected : Phase) (b : Backend σ) :
    (require action expected).runOn b = if b.phase = expected then (.ok (), b)
      else (.error (.backend (.wrongPhase action b.phase expected)), b) := by
  rw [require, Step.runOn_bind, Step.runOn_get]
  by_cases h : b.phase = expected <;> simp [h]

@[simp]
theorem enter_runOn (phase : Phase) (b : Backend σ) :
    (enter phase).runOn b = (.ok (), { b with phase }) := rfl

def create (t : Target σ ν υ) (name : String) (signature : Signature) :
    Step (Backend σ) Unit := do
  require .create .idle
  if signature ≠ .entry then throw (.backend (.wrongSignature name signature))
  hook (t.create name signature)
  modify fun b => { b with phase := .created, unitName := name }

def position (t : Target σ ν υ) : Step (Backend σ) Unit := do
  require .position .created
  hook t.position
  enter .body

def const (t : Target σ ν υ) (value : Float) : Step (Backend σ) ν := do
  require .constant .body
  hook (t.const value)

def binary (t : Target σ ν υ) (op : Operator) (left right : ν) : Step (Backend σ) ν := do
  require (.binary op) .body
  hook (t.binary op left right)

def call (t : Target σ ν υ) (name : String) (args : List ν) : Step (Backend σ) ν := do
  require (.call name) .body
  hook (t.call name args)

def ret (t : Target σ ν υ) (value : ν) : Step (Backend σ) Unit := do
  require .ret .body
  hook (t.ret value)
  enter .returned

/-- A body that is still open is told about its return. -/
def finalize (t : Target σ ν υ) : Step (Backend σ) υ := do
  let b ← get
  if b.phase = .body then throw (.backend (.noReturn b.unitName))
  require .finalize .returned
  let unit ← hook (t.finalize b.unitName)
  enter .finalized
  return unit

end Backend

inductive Request (ν : Type) where
  | create (name : String) (signature : Signature)
  | position
  | const (value : Float)
  | binary (op : Operator) (left right : ν)
  | call (name : String) (args : List ν)
  | ret (value : ν)
  | finalize

inductive Reply (ν υ : Type) where
  | done
  | value (v : ν)
  | unit (u : υ)

namespace Backend

variable {σ ν υ : Type}

def answer (t : Target σ ν υ) : Request ν → Step (Backend σ) (Reply ν υ)
  | .create name signature => do
    create t name signature
    return .done
  | .position => do
    position t
    return .done
  | .const value => do return .value (← const t value)
  | .binary op left right => do return .value (← binary t op left right)
  | .call name args => do return .value (← call t name args)
  | .ret value => do
    ret t value
    return .done
  | .finalize => do return .unit (← finalize t)

end Backend

end ArithCompiler

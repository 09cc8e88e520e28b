import ArithCompiler.CommandLine.Run

set_option autoImplicit false

/-!
# The program

Standard input is read only when the arguments hold no expression.
-/

open ArithCompiler

def main (args : List String) : IO UInt32 := do
  let stdin ← match Options.parse args with
    | .ok { source := none, .. } => (← IO.getStdin).readToEnd
    | _ => pure ""
  let outcome := CommandLine.run .platform args stdin
  IO.print outcome.stdout
  IO.eprint outcome.stderr
  return outcome.code.toUInt32

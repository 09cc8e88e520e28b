import ArithCompiler.CommandLine.Options
import ArithCompiler.Tree.Grammar
import ArithCompiler.Tree.Printer

set_option autoImplicit false

/-!
# Running a command line

A run ends with code 0, with 1 if the source is refused, or with 2 if the arguments are. Results go
to standard output, and everything else to standard error. Errors in the text and refusals of code
generation are expected; any other failure is let through and ends the program.
-/

namespace ArithCompiler

structure Outcome where
  code : Nat
  stdout : String
  stderr : String
  deriving DecidableEq, Repr

/-- A failure that the command line does not expect. -/
inductive Escape where
  | reading (error : SourceError)
  | compiling (fault : Fault)
  | calling (error : Math.RunError)
  deriving DecidableEq, Repr

def Escape.message : Escape → String
  | reading error => error.message
  | compiling fault => fault.message?.getD ""
  | calling error => error.message?.getD ""

namespace CommandLine

def usage : String :=
  "calc [OPTIONS] [EXPR]\n\n"
    ++ "Compile EXPR (or stdin) and print its value.\n\n"
    ++ "Options:\n"
    ++ "  --backend NAME     Code generator: llvm, bytecode (default: llvm)\n"
    ++ "  --emit WHAT        value, ir, ast, source (default: value)\n"
    ++ "  -O LEVEL           LLVM optimization level 0-3 (default: 0)\n"
    ++ "  -D NAME=VALUE      Define a named constant (repeatable)\n"
    ++ "  --no-math          Do not predefine math constants and functions\n"
    ++ "  -v, --verbose      Log each compilation step to stderr\n"
    ++ "  --help             Show this help message\n"
    ++ "  --                 Treat the remaining arguments as the expression\n"

def complaint (text : String) : String := "calc: " ++ text ++ "\n"

def stopped : Stop → Outcome
  | .help => ⟨0, usage, ""⟩
  | .usage e => ⟨2, "", complaint e.message⟩

def lineFeeds : List Char → List Char
  | '\r' :: '\n' :: rest => '\n' :: lineFeeds rest
  | '\r' :: rest => '\n' :: lineFeeds rest
  | c :: rest => c :: lineFeeds rest
  | [] => []

def logText (log : List LogEntry) : String :=
  String.join (log.map fun e => e.level.name ++ " " ++ e.logger ++ ": " ++ e.message ++ "\n")

/-- A number that cannot be read and nesting without end are no errors in the text. -/
def readingComplaint? (error : SourceError) : Option String :=
  match error with
  | .grammatical .malformedNumber _ | .grammatical .nestedTooDeep _ => none
  | _ => some (complaint ("parse error: " ++ error.message))

def faultComplaint? (fault : Fault) : Option String :=
  match fault with
  | .unbound _ | .unsupported _ | .residual _ =>
    some (complaint ("codegen error: " ++ fault.message?.getD ""))
  | .backend e => some (complaint ("backend error: " ++ e.message))
  | _ => none

def reportText (output : Output) (report : Report) : Except Math.RunError String :=
  match report with
  | .events _ => .ok ""
  | .code text value =>
    match output with
    | .code => .ok text
    | _ => value.map fun x => Number.text x ++ "\n"

/-- Only making the code is watched; a failure of its run is let through. -/
def generate (c : Math.Elementary) (o : Options) (e : Expr) : Except Escape Outcome :=
  match o.engine.checkLevel o.level with
  | .error error => .ok ⟨1, "", complaint ("backend error: " ++ error.message)⟩
  | .ok () =>
    let run := (o.engine.engine c o.level).compilePhase (.scope o.scope) e
    let log := if o.verbose then logText run.log else ""
    match run.outcome with
    | .error fault =>
      match faultComplaint? fault with
      | some text => .ok ⟨1, "", log ++ text⟩
      | none => .error (.compiling fault)
    | .ok report =>
      match reportText o.output report with
      | .ok text => .ok ⟨0, text, log⟩
      | .error error => .error (.calling error)

def perform (c : Math.Elementary) (o : Options) (source : String) : Except Escape Outcome :=
  match parse source with
  | .error error =>
    match readingComplaint? error with
    | some text => .ok ⟨1, "", text⟩
    | none => .error (.reading error)
  | .ok e =>
    match o.output with
    | .outline => .ok ⟨0, e.outline ++ "\n", ""⟩
    | .source => .ok ⟨0, e.toSource ++ "\n", ""⟩
    | .value | .code => generate c o e

/-- The expression of the arguments, or else standard input. -/
def sourceOf (o : Options) (stdin : String) : String :=
  o.source.getD (String.ofList (lineFeeds stdin.toList))

/-- Runs a command line up to a failure that is not expected. -/
def attempt (c : Math.Elementary) (args : List String) (stdin : String) : Except Escape Outcome :=
  match Options.parse args with
  | .error stop => .ok (stopped stop)
  | .ok o => perform c o (sourceOf o stdin)

/-- Runs a command line. A failure that is not expected ends it with code 1. -/
def run (c : Math.Elementary) (args : List String) (stdin : String) : Outcome :=
  match attempt c args stdin with
  | .ok outcome => outcome
  | .error escape => ⟨1, "", complaint escape.message⟩

end CommandLine

end ArithCompiler

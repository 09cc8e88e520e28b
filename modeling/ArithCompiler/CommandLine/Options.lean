import ArithCompiler.Bindings
import ArithCompiler.Engine
import ArithCompiler.Number.Decimal
import ArithCompiler.Text.Letter

set_option autoImplicit false

/-!
# Options of the command line

Options may come in any order and the last one of a kind counts. An argument that begins with a
minus and looks like an expression is one; after `--` everything is.
-/

namespace ArithCompiler

inductive Output where
  | value
  | code
  | outline
  | source
  deriving DecidableEq, Repr

namespace Output

def name : Output → String
  | value => "value"
  | code => "ir"
  | outline => "ast"
  | source => "source"

def ofName? (name : String) : Option Output :=
  [value, code, outline, source].find? (·.name == name)

end Output

structure Options where
  engine : EngineKind
  output : Output
  level : Nat
  defines : Bindings Float
  math : Bool
  verbose : Bool
  source : Option String
  deriving DecidableEq

inductive UsageError where
  | missingValue (flag : String)
  | unknownEngine (name : String)
  | unknownOutput (name : String)
  | optimizationLevel (level : String)
  | malformedDefinition (text : String)
  | invalidValue (name value : String)
  | unexpectedArgument (text : String)
  | unknownFlag (text : String)
  deriving DecidableEq, Repr

def UsageError.message : UsageError → String
  | missingValue flag => "missing value for " ++ flag
  | unknownEngine name => "unknown backend '" ++ name ++ "'"
  | unknownOutput name => "unknown emit kind '" ++ name ++ "'"
  | optimizationLevel level => "optimization level must be 0-3, got '" ++ level ++ "'"
  | malformedDefinition text => "expected NAME=VALUE, got '" ++ text ++ "'"
  | invalidValue name value => "invalid value for '" ++ name ++ "': '" ++ value ++ "'"
  | unexpectedArgument text => "unexpected argument '" ++ text ++ "'"
  | unknownFlag text => "unknown flag '" ++ text ++ "'"

inductive Stop where
  | help
  | usage (error : UsageError)
  deriving DecidableEq, Repr

inductive ValueFlag where
  | backend
  | emit
  | level
  | define
  deriving DecidableEq, Repr

namespace ValueFlag

def name : ValueFlag → String
  | backend => "--backend"
  | emit => "--emit"
  | level => "-O"
  | define => "-D"

def ofName? (name : String) : Option ValueFlag :=
  [backend, emit, level, define].find? (·.name == name)

end ValueFlag

namespace Options

def default : Options := ⟨.native, .value, 0, [], true, false, none⟩

/-- Whether an argument of at least two characters is an expression by its second one, or by a space
    in it. -/
def looksLikeExpression (arg : String) : Bool :=
  match arg.toList with
  | _ :: c :: _ =>
    Text.isDigitLike c || Text.isLetter c || c == '.' || c == '(' || arg.toList.contains ' '
  | _ => false

def level? (text : String) : Option Nat :=
  match text.toList with
  | [c] => if '0' ≤ c && c ≤ '3' then some (Number.digitValue c) else none
  | _ => none

/-- The text before the first `=`, which is not empty, and the text after it. -/
def definition? (text : String) : Option (String × String) :=
  let cs := text.toList
  match cs.takeWhile (· != '='), cs.dropWhile (· != '=') with
  | [], _ => none
  | name, _ :: value => some (String.ofList name, String.ofList value)
  | _, [] => none

def setLevel (o : Options) (text : String) : Except UsageError Options :=
  match level? text with
  | some level => .ok { o with level }
  | none => .error (.optimizationLevel text)

def set (o : Options) (flag : ValueFlag) (value : String) : Except UsageError Options :=
  match flag with
  | .backend =>
    match EngineKind.ofName? value with
    | some engine => .ok { o with engine }
    | none => .error (.unknownEngine value)
  | .emit =>
    match Output.ofName? value with
    | some output => .ok { o with output }
    | none => .error (.unknownOutput value)
  | .level => o.setLevel value
  | .define =>
    match definition? value with
    | none => .error (.malformedDefinition value)
    | some (name, number) =>
      match Number.ofText? number with
      | some x => .ok { o with defines := o.defines.set name x }
      | none => .error (.invalidValue name number)

inductive Argument where
  | help
  | valued (flag : ValueFlag)
  /-- The level follows without a space. -/
  | levelSuffix (level : String)
  | noMath
  | verbose
  | separator
  | unknown
  | expression
  deriving DecidableEq, Repr

def classify (arg : String) : Argument :=
  if arg = "--help" || arg = "-h" then .help
  else
    match ValueFlag.ofName? arg with
    | some flag => .valued flag
    | none =>
      match arg.toList with
      | ['-', 'O', c] => .levelSuffix (String.singleton c)
      | cs =>
        if arg = "--no-math" then .noMath
        else if arg = "-v" || arg = "--verbose" then .verbose
        else if arg = "--" then .separator
        else if cs.head? = some '-' && 1 < cs.length && !looksLikeExpression arg then .unknown
        else .expression

/-- The expression after `--`. -/
def takeAll (o : Options) : List String → Except UsageError Options
  | [] => .ok o
  | arg :: rest =>
    match o.source with
    | none => .ok { o with source := some (" ".intercalate (arg :: rest)) }
    | some _ => .error (.unexpectedArgument arg)

def read (o : Options) : List String → Except Stop Options
  | [] => .ok o
  | arg :: rest =>
    match classify arg with
    | .help => .error .help
    | .valued flag =>
      match rest with
      | [] => .error (.usage (.missingValue arg))
      | value :: rest =>
        match o.set flag value with
        | .ok o => read o rest
        | .error e => .error (.usage e)
    | .levelSuffix level =>
      match o.setLevel level with
      | .ok o => read o rest
      | .error e => .error (.usage e)
    | .noMath => read { o with math := false } rest
    | .verbose => read { o with verbose := true } rest
    | .separator => (o.takeAll rest).mapError .usage
    | .unknown => .error (.usage (.unknownFlag arg))
    | .expression =>
      match o.source with
      | none => read { o with source := some arg } rest
      | some _ => .error (.usage (.unexpectedArgument arg))

def parse (args : List String) : Except Stop Options := default.read args

def scope (o : Options) : Scope := (if o.math then .math else .empty : Scope).defineAll o.defines

end Options

end ArithCompiler

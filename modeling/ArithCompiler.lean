import ArithCompiler.Backend.Bytecode
import ArithCompiler.Backend.Contract
import ArithCompiler.Backend.Fault
import ArithCompiler.Backend.NativeModule
import ArithCompiler.Backend.Recording
import ArithCompiler.Bindings
import ArithCompiler.CommandLine.Options
import ArithCompiler.CommandLine.Run
import ArithCompiler.Compiler
import ArithCompiler.Engine
import ArithCompiler.Main
import ArithCompiler.Math.Guarded
import ArithCompiler.Math.Library
import ArithCompiler.Math.Native
import ArithCompiler.Number.Binary
import ArithCompiler.Number.Decimal
import ArithCompiler.Number.Integral
import ArithCompiler.Number.Notation
import ArithCompiler.Number.Shortest
import ArithCompiler.Operator
import ArithCompiler.Scope
import ArithCompiler.Session
import ArithCompiler.SourceError
import ArithCompiler.Step
import ArithCompiler.Text.Digit
import ArithCompiler.Text.Letter
import ArithCompiler.Text.Printable
import ArithCompiler.Text.Quoted
import ArithCompiler.Token.Basic
import ArithCompiler.Token.Lexer
import ArithCompiler.Tree.Basic
import ArithCompiler.Tree.Cursor
import ArithCompiler.Tree.Grammar
import ArithCompiler.Tree.Literal
import ArithCompiler.Tree.Printer
import ArithCompiler.Tree.Traversal
import ArithCompiler.Proofs.Grammar.Derivation
import ArithCompiler.Proofs.Grammar.Completeness
import ArithCompiler.Proofs.Grammar.Progress
import ArithCompiler.Proofs.Lexer.Numeral
import ArithCompiler.Proofs.Lexer.Words
import ArithCompiler.Proofs.Lexer.Tokens
import ArithCompiler.Proofs.Lexer.Longest
import ArithCompiler.Proofs.Lexer.Segmentation
import ArithCompiler.Proofs.Lexer.Embedding
import ArithCompiler.Proofs.Grammar.Acceptance
import ArithCompiler.Proofs.Grammar.Lookahead
import ArithCompiler.Proofs.Grammar.Viability
import ArithCompiler.Proofs.Grammar.Totality
import ArithCompiler.Proofs.Number.Canonical
import ArithCompiler.Proofs.Number.Exact
import ArithCompiler.Proofs.Number.Reading
import ArithCompiler.Proofs.Number.Wide
import ArithCompiler.Proofs.Tree.RoundTrip
import ArithCompiler.Proofs.Tree.Operations
import ArithCompiler.Proofs.Tree.Lines
import ArithCompiler.Proofs.Compiler.Operands
import ArithCompiler.Proofs.Compiler.Phases
import ArithCompiler.Proofs.Compiler.Resolution
import ArithCompiler.Proofs.Bytecode.Code
import ArithCompiler.Proofs.Bytecode.Meaning
import ArithCompiler.Proofs.Backend.Requests
import ArithCompiler.Proofs.Bytecode.Requests
import ArithCompiler.Proofs.Backend.Lifecycle
import ArithCompiler.Proofs.Bytecode.Safety
import ArithCompiler.Proofs.Bytecode.Finished
import ArithCompiler.Proofs.Engine.Runs
import ArithCompiler.Proofs.Compiler.Refusal
import ArithCompiler.Proofs.Compiler.Reuse
import ArithCompiler.Proofs.Compiler.Requests
import ArithCompiler.Proofs.Recording.Replay
import ArithCompiler.Proofs.Recording.Decoding
import ArithCompiler.Proofs.Recording.Refusal
import ArithCompiler.Proofs.Number.Kinds
import ArithCompiler.Proofs.Math.Guarded
import ArithCompiler.Proofs.Math.Tables
import ArithCompiler.Proofs.Native.Declarations
import ArithCompiler.Proofs.Native.Body
import ArithCompiler.Proofs.Native.Code
import ArithCompiler.Proofs.Engine.Agreement
import ArithCompiler.Proofs.Native.Inlining
import ArithCompiler.Proofs.Engine.Lines
import ArithCompiler.Proofs.Math.Raising
import ArithCompiler.Proofs.Number.Parity
import ArithCompiler.Proofs.Math.Host
import ArithCompiler.Proofs.Bytecode.Returning
import ArithCompiler.Proofs.Bytecode.Outcome
import ArithCompiler.Proofs.Engine.Rereading
import ArithCompiler.Proofs.CommandLine.Classification
import ArithCompiler.Proofs.Engine.Library
import ArithCompiler.Proofs.CommandLine.Options
import ArithCompiler.Proofs.CommandLine.Settings
import ArithCompiler.Proofs.CommandLine.Groups
import ArithCompiler.Proofs.Grammar.Openings
import ArithCompiler.Proofs.CommandLine.Negation
import ArithCompiler.Proofs.Compiler.Checks
import ArithCompiler.Proofs.Grammar.Spacing
import ArithCompiler.Proofs.Lexer.Places
import ArithCompiler.Proofs.Tree.Image
import ArithCompiler.Proofs.Tree.Formatting
import ArithCompiler.Proofs.Tree.Parentheses
import ArithCompiler.Proofs.Text.Nesting
import ArithCompiler.Proofs.Grammar.Cost
import ArithCompiler.Proofs.Grammar.Unplaced
import ArithCompiler.Proofs.Grammar.Composition
import ArithCompiler.Proofs.Tree.Layout
import ArithCompiler.Proofs.Tree.Pairs
import ArithCompiler.Proofs.Grammar.Narrow
import ArithCompiler.Proofs.Compiler.Frame
import ArithCompiler.Proofs.Compiler.Relevance
import ArithCompiler.Proofs.Tree.Atoms
import ArithCompiler.Proofs.Recording.Constants
import ArithCompiler.Proofs.Compiler.Imbalance
import ArithCompiler.Proofs.Number.Rational
import ArithCompiler.Proofs.Number.Remainder
import ArithCompiler.Proofs.Math.Standard
import ArithCompiler.Proofs.Native.Calls
import ArithCompiler.Proofs.Native.Numbering
import ArithCompiler.Proofs.Native.Texts
import ArithCompiler.Proofs.Native.Modules
import ArithCompiler.Proofs.Number.Texts
import ArithCompiler.Proofs.Bytecode.Listing
import ArithCompiler.Proofs.Grammar.Driving

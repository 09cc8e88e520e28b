import ArithCompiler.CommandLine.Run
import ArithCompiler.Proofs.Bytecode.Returning
import ArithCompiler.Proofs.CommandLine.Options
import ArithCompiler.Proofs.Grammar.Totality

set_option autoImplicit false

/-!
# How runs of the command line end

When the arguments are accepted, a run ends with what they ask for or because the source is refused.
There is no third way: nothing is raised that is not watched for.
-/

namespace ArithCompiler

open Math (Elementary)

/-- The tree is compiled for its value and for its code only. -/
def Output.compiles : Output → Prop
  | value | code => True
  | outline | source => False

namespace CommandLine

/-! ## What the options ask for -/

section Requests

variable (c : Elementary) (o : Options)

def compilation (e : Expr) : Except Fault Report :=
  match o.engine.checkLevel o.level with
  | .error error => .error (.backend error)
  | .ok () => ((o.engine.engine c o.level).compile (.scope o.scope) .balanced e).outcome

/-- The source cannot be read, or it has to be compiled and cannot be. -/
def Refuses (source : String) : Prop :=
  (∃ error, parse source = .error error) ∨
    ∃ e fault, parse source = .ok e ∧ o.output.compiles ∧ compilation c o e = .error fault

def Prints (e : Expr) (text : String) : Prop :=
  match o.output with
  | .outline => text = e.outline ++ "\n"
  | .source => text = e.toSource ++ "\n"
  | .code => ∃ value, compilation c o e = .ok (.code text value)
  | .value => ∃ code v, compilation c o e = .ok (.code code (.ok v)) ∧ text = Number.text v ++ "\n"

inductive Ends (source : String) : Outcome → Prop
  | refused {stderr : String} (h : Refuses c o source) : Ends source ⟨1, "", stderr⟩
  | printed {e : Expr} {text stderr : String} (he : parse source = .ok e)
      (htext : Prints c o e text) : Ends source ⟨0, text, stderr⟩

end Requests

variable {c : Elementary} {o : Options} {source : String} {e : Expr}

theorem Prints.compiled {text : String} (h : Prints c o e text) (hcompiles : o.output.compiles) :
    ∃ report, compilation c o e = .ok report := by
  cases houtput : o.output with
  | outline | source =>
    rw [houtput] at hcompiles
    exact hcompiles.elim
  | code =>
    rw [Prints, houtput] at h
    obtain ⟨value, hunit⟩ := h
    exact ⟨_, hunit⟩
  | value =>
    rw [Prints, houtput] at h
    obtain ⟨code, v, hunit, -⟩ := h
    exact ⟨_, hunit⟩

theorem Prints.not_refuses {text : String} (h : Prints c o e text) (he : parse source = .ok e) :
    ¬ Refuses c o source := by
  rintro (⟨error, herror⟩ | ⟨e', fault, he', hcompiles, hfault⟩)
  · rw [he] at herror
    cases herror
  · obtain rfl := Except.ok.inj (he.symm.trans he')
    obtain ⟨report, hreport⟩ := h.compiled hcompiles
    rw [hreport] at hfault
    cases hfault

/-! ## Where a run gets to -/

theorem readingComplaint?_of_cause {error : SourceError}
    (h : error.IsTokenizeError ∨ error.IsParseError) :
    ∃ text, readingComplaint? error = some text := by
  cases error with
  | lexical cause line col => exact ⟨_, rfl⟩
  | grammatical cause found =>
    have hreport : cause.IsReport := h.resolve_left id
    cases cause with
    | malformedNumber | nestedTooDeep => exact hreport.elim
    | _ => exact ⟨_, rfl⟩

theorem faultComplaint?_of_check {s : Scope} {fault : Fault}
    (h : (Resolver.scope s).check e = .error fault) : ∃ text, faultComplaint? fault = some text := by
  rcases Resolver.check_eq_error h with ⟨x, rfl⟩ | ⟨construct, rfl⟩
  · exact ⟨_, rfl⟩
  · exact ⟨_, rfl⟩

section Accepted

variable {args : List String} (ho : Options.parse args = .ok o)
include ho

theorem compilation_eq (e : Expr) : compilation c o e
    = ((o.engine.engine c o.level).compile (.scope o.scope) .balanced e).outcome := by
  rw [compilation, Options.checkLevel_of_parse ho]

theorem compilation_cases (c : Elementary) (e : Expr) :
    (∃ fault, (Resolver.scope o.scope).check e = .error fault ∧ compilation c o e = .error fault) ∨
      ∃ text v, compilation c o e = .ok (.code text (.ok v)) := by
  rw [compilation_eq ho]
  cases hcheck : (Resolver.scope o.scope).check e with
  | error fault => exact .inl ⟨fault, rfl, o.engine.compile_refused c _ o.scope_functions hcheck⟩
  | ok =>
    exact .inr (o.engine.compile_gives c _ o.scope_functions (Resolver.resolves_of_check hcheck))

theorem generate_ends (hcompiles : o.output.compiles) (he : parse source = .ok e) :
    ∃ outcome, generate c o e = .ok outcome ∧ Ends c o source outcome := by
  have hrun : ((o.engine.engine c o.level).compilePhase (.scope o.scope) e).outcome
      = compilation c o e := by
    rw [compilation_eq ho, Engine.compilePhase_outcome]
  simp only [generate, Options.checkLevel_of_parse ho, hrun]
  rcases compilation_cases ho c e with ⟨fault, hcheck, hfault⟩ | ⟨text, v, hunit⟩
  · obtain ⟨complaint, hcomplaint⟩ := faultComplaint?_of_check hcheck
    simp only [hfault, hcomplaint]
    exact ⟨_, rfl, .refused (.inr ⟨e, fault, he, hcompiles, hfault⟩)⟩
  · -- The call gives a number too, so nothing is left to fail after the code is made.
    rw [hunit]
    cases houtput : o.output with
    | value => exact ⟨_, rfl, .printed he (by rw [Prints, houtput]; exact ⟨text, v, hunit, rfl⟩)⟩
    | code => exact ⟨_, rfl, .printed he (by rw [Prints, houtput]; exact ⟨.ok v, hunit⟩)⟩
    | outline | source =>
      rw [houtput] at hcompiles
      exact hcompiles.elim

theorem perform_ends (c : Elementary) (source : String) :
    ∃ outcome, perform c o source = .ok outcome ∧ Ends c o source outcome := by
  rcases Grammar.hasOutcome_parseWith (fun _ => Grammar.expr_orderly) source
    with ⟨e, he⟩ | ⟨error, herror, hcause⟩
  · change parse source = .ok e at he
    rw [perform, he]
    cases houtput : o.output with
    | outline => exact ⟨_, rfl, .printed he (by rw [Prints, houtput])⟩
    | source => exact ⟨_, rfl, .printed he (by rw [Prints, houtput])⟩
    | value | code => exact generate_ends ho (by rw [houtput]; trivial) he
  · change parse source = .error error at herror
    obtain ⟨text, htext⟩ := readingComplaint?_of_cause (hcause.imp_left And.right)
    simp only [perform, herror, htext]
    exact ⟨_, rfl, .refused (.inl ⟨error, herror⟩)⟩

end Accepted

theorem run_of_attempt {args : List String} {stdin : String} {outcome : Outcome}
    (h : attempt c args stdin = .ok outcome) : run c args stdin = outcome := by
  rw [run, h]

/-- Every run ends with code 0, 1 or 2, and no failure is let through. It is 2 exactly when the
    arguments are rejected, and 1 exactly when they are accepted and the source is refused; then
    nothing is printed. Otherwise the usage is printed if help is asked for, and else what the
    options ask for of the source. -/
theorem run_classified (c : Elementary) (args : List String) (stdin : String) :
    let outcome := run c args stdin
    attempt c args stdin = .ok outcome ∧ outcome.code ≤ 2 ∧
      (outcome.code = 2 ↔ ∃ error, Options.parse args = .error (.usage error)) ∧
      (outcome.code = 1 ↔ ∃ o, Options.parse args = .ok o ∧ Refuses c o (sourceOf o stdin)) ∧
      (outcome.code ≠ 0 → outcome.stdout = "") ∧
      (outcome.code = 0 → Options.parse args = .error .help ∧ outcome.stdout = usage ∨
        ∃ o e, Options.parse args = .ok o ∧ parse (sourceOf o stdin) = .ok e ∧
          Prints c o e outcome.stdout) := by
  intro outcome
  cases hparse : Options.parse args with
  | error stop =>
    have hattempt : attempt c args stdin = .ok (stopped stop) := by rw [attempt, hparse]
    have houtcome : outcome = stopped stop := run_of_attempt hattempt
    rw [houtcome]
    cases stop with
    | help => exact ⟨hattempt, Nat.zero_le 2, ⟨nofun, nofun⟩, ⟨nofun, nofun⟩, absurd rfl,
        fun _ => .inl ⟨rfl, rfl⟩⟩
    | usage error => exact ⟨hattempt, Nat.le_refl 2, ⟨fun _ => ⟨error, rfl⟩, fun _ => rfl⟩,
        ⟨nofun, nofun⟩, fun _ => rfl, nofun⟩
  | ok o =>
    obtain ⟨ending, hperform, hends⟩ := perform_ends hparse c (sourceOf o stdin)
    have hattempt : attempt c args stdin = .ok ending := by
      simp only [attempt, hparse, hperform]
    have houtcome : outcome = ending := run_of_attempt hattempt
    rw [houtcome]
    cases hends with
    | refused hrefuses => exact ⟨hattempt, Nat.le_succ 1, ⟨nofun, nofun⟩,
        ⟨fun _ => ⟨o, rfl, hrefuses⟩, fun _ => rfl⟩, fun _ => rfl, nofun⟩
    | @printed e text stderr he htext =>
      refine ⟨hattempt, Nat.zero_le 2, ⟨nofun, nofun⟩, ⟨nofun, ?_⟩, absurd rfl,
        fun _ => .inr ⟨o, e, rfl, he, htext⟩⟩
      rintro ⟨o', ho', hrefuses⟩
      obtain rfl := Except.ok.inj ho'
      exact absurd hrefuses (htext.not_refuses he)

end CommandLine

end ArithCompiler

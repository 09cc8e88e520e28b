import ArithCompiler.Math.Guarded
import ArithCompiler.Proofs.Backend.Lifecycle
import ArithCompiler.Proofs.Native.Inlining

set_option autoImplicit false

/-!
# Calls and declarations

A call uses the global of its name, or adds a declaration with as many parameters as it has
arguments. Globals stay where they are, and of one name the first one counts, so a name keeps its
number of parameters. A call must have just as many arguments, except for the calls that become
intrinsics: of those no more is asked than that no argument is missing.
-/

namespace ArithCompiler

open Math (Elementary)

namespace NativeModule

open Backend (Advances Exchange exchanges answer_due answer_not_due)

variable {m m' m'' : NativeModule} {f : NativeFunction} {function callee : String} {count : Nat}

/-! ## Signatures -/

def signatures (m : NativeModule) : List (String × Nat) := m.globals.map fun g => (g.name, g.arity)

theorem arity?_eq_lookup (m : NativeModule) (name : String) :
    m.arity? name = m.signatures.lookup name := by
  rw [arity?, signatures]
  induction m.globals with
  | nil => rfl
  | cons g gs ih =>
    rw [List.find?_cons, List.map_cons, List.lookup_cons, BEq.comm (a := name)]
    cases g.name == name with
    | true => rfl
    | false => exact ih

theorem arity?_mono (h : m.signatures <+: m'.signatures) {arity : Nat}
    (harity : m.arity? callee = some arity) : m'.arity? callee = some arity := by
  obtain ⟨more, hmore⟩ := h
  rw [arity?_eq_lookup] at harity ⊢
  rw [← hmore, List.lookup_append, harity]
  rfl

/-! ## Requests of a module whose unit is open -/

def added (m : NativeModule) (function : String) (count : Nat) : List Declaration :=
  if (m.arity? (calleeName function)).isNone then [.ofFunction function count] else []

def creating (m : NativeModule) (unit : String) : NativeModule :=
  ⟨m.globals, some ⟨unit, []⟩, [], false⟩

def extended (m : NativeModule) (f : NativeFunction) (i : NativeInstr) : NativeModule :=
  { m with unit := some { f with body := f.body ++ [i] } }

def declaring (m : NativeModule) (function : String) (count : Nat) : NativeModule :=
  { m with declarations := m.declarations ++ m.added function count }

def called (m : NativeModule) (f : NativeFunction) (function : String) (args : List Operand) :
    NativeModule :=
  (m.declaring function args.length).extended f
    (.call (f.freshName .call) (calleeName function) args)

theorem unit_of_target? (hm : m.target? = .ok f) : m.unit = some f ∧ m.positioned = true := by
  rw [target?] at hm
  cases hunit : m.unit with
  | none => simp [hunit] at hm
  | some g =>
    cases hpositioned : m.positioned with
    | false => simp [hunit, hpositioned] at hm
    | true =>
      simp only [hunit, hpositioned, if_true, Except.ok.injEq] at hm
      exact ⟨congrArg some hm, rfl⟩

theorem extended_target? (hm : m.target? = .ok f) (i : NativeInstr) :
    (m.extended f i).target? = .ok { f with body := f.body ++ [i] } := by
  simp [target?, extended, (unit_of_target? hm).2]

theorem append_target? (hm : m.target? = .ok f) (i : NativeInstr) :
    (append i).runOn m = (.ok (), m.extended f i) := by
  rw [append, Step.runOn_bind_ok (Step.runOn_get _), Step.runOn_bind, Step.runOn_lift, hm]
  rfl

theorem emit_target? (hm : m.target? = .ok f) (stem : Stem) (i : ResultName → NativeInstr) :
    (emit stem i).runOn m
      = (.ok (.result (f.freshName stem)), m.extended f (i (f.freshName stem))) := by
  rw [emit, Step.runOn_bind_ok (Step.runOn_get _), Step.runOn_bind, Step.runOn_lift, hm]
  exact Step.runOn_bind_ok (append_target? hm _)

variable (c : Elementary) (level : Int) {args : List Operand}

theorem create_runOn (m : NativeModule) (unit : String) :
    ((target c level).create unit .entry).runOn m =
      if unit = "" || (m.arity? unit).isSome then (.error (.nameTaken unit), m)
      else (.ok (), m.creating unit) := by
  simp only [target, Step.runOn_bind_ok (Step.runOn_get _)]
  split <;> rfl

theorem position_runOn (hm : m.unit = some f) :
    ((target c level).position).runOn m = (.ok (), { m with positioned := true }) := by
  simp only [target, Step.runOn_bind_ok (Step.runOn_get _), hm]
  rfl

theorem ret_runOn (hm : m.target? = .ok f) (v : Operand) :
    ((target c level).ret v).runOn m =
      if f.hasReturned then (.error .returnedBefore, m) else (.ok (), m.extended f (.ret v)) := by
  simp only [target, Step.runOn_bind, Step.runOn_get, Step.runOn_lift, hm]
  split
  · rfl
  · exact append_target? hm _

theorem finalize_runOn (m : NativeModule) (unit : String) :
    ((target c level).finalize unit).runOn m = (m.finish c level unit, m) :=
  (Step.runOn_bind_ok (Step.runOn_get _)).trans (Step.runOn_lift _ _)

/-! ## One call -/

def Admits (m : NativeModule) (function : String) (count : Nat) : Prop :=
  ∀ arity, m.arity? (calleeName function) = some arity → arity ≤ count ∧
    (intrinsic? function = none → arity = count ∧ m.unit.any (·.name == function) = false)

def refusal (function : String) (count : Nat) : Fault :=
  if (intrinsic? function).isNone then .backend (.wrongArgumentCount function count)
  else .missingArgument function

theorem declare_admitted (h : m.Admits function count) : ∃ arity ≤ count,
    (declare function count).runOn m
      = (.ok (calleeName function, arity), m.declaring function count) := by
  rw [declare, Step.runOn_bind_ok (Step.runOn_get _), declaring, added]
  cases harity : m.arity? (calleeName function) with
  | none =>
    rw [calleeName] at harity
    simp only [harity]
    exact ⟨count, Nat.le_refl _, rfl⟩
  | some arity =>
    obtain ⟨hle, hexternal⟩ := h arity harity
    rw [calleeName] at harity
    simp only [harity, Option.isNone_some, Bool.false_eq_true, if_false, List.append_nil]
    have hadmitted : ((intrinsic? function).isNone
        && (decide (arity ≠ count) || m.unit.any (·.name == function))) = false := by
      cases hintrinsic : intrinsic? function with
      | some name => rfl
      | none =>
        obtain ⟨rfl, hself⟩ := hexternal hintrinsic
        simp [hself]
    rw [hadmitted]
    exact ⟨arity, hle, rfl⟩

theorem call_admitted (hm : m.target? = .ok f) (h : m.Admits function args.length) :
    ((target c level).call function args).runOn m
      = (.ok (.result (f.freshName .call)), m.called f function args) := by
  obtain ⟨arity, hle, hdeclare⟩ := declare_admitted h
  have hunit : ¬ (m.declaring function args.length).unit.isNone := by
    simp [declaring, (unit_of_target? hm).1]
  have htarget : (m.declaring function args.length).target? = .ok f := hm
  change (declare function args.length >>= _).runOn m = _
  rw [Step.runOn_bind_ok hdeclare, Step.runOn_bind_ok (Step.runOn_get _)]
  simp only [if_neg hunit, if_neg (Nat.not_lt.2 hle)]
  exact emit_target? htarget _ _

theorem call_not_admitted (hm : m.target? = .ok f) (h : ¬ m.Admits function args.length) :
    ((target c level).call function args).runOn m = (.error (refusal function args.length), m) := by
  obtain ⟨arity, harity, hnot⟩ : ∃ arity, m.arity? (calleeName function) = some arity ∧
      ¬ (arity ≤ args.length ∧ (intrinsic? function = none →
        arity = args.length ∧ m.unit.any (·.name == function) = false)) := by
    simpa only [Admits, not_forall, exists_prop] using h
  rw [calleeName] at harity
  change (declare function args.length >>= _).runOn m = _
  rw [declare, bind_assoc, Step.runOn_bind_ok (Step.runOn_get _)]
  simp only [harity]
  cases hintrinsic : intrinsic? function with
  | none =>
    have hrefused : (decide (arity ≠ args.length) || m.unit.any (·.name == function)) = true := by
      rw [hintrinsic] at hnot
      by_contra hadmitted
      simp only [Bool.not_eq_true, Bool.or_eq_false_iff, decide_eq_false_iff_not, not_not]
        at hadmitted
      exact hnot ⟨hadmitted.1.le, fun _ => hadmitted⟩
    simp only [Option.isNone_none, hrefused, Bool.and_self, if_true]
    rw [refusal, hintrinsic]
    rfl
  | some name =>
    rw [hintrinsic] at harity
    have hfew : args.length < arity := by
      by_contra hle
      exact hnot ⟨Nat.not_lt.1 hle,
        fun hnone => absurd (hintrinsic.symm.trans hnone) (Option.some_ne_none _)⟩
    have hunit : ¬ m.unit.isNone := by simp [(unit_of_target? hm).1]
    simp only [Option.isNone_some, Bool.false_and, Bool.false_eq_true, if_false]
    rw [refusal, hintrinsic, Step.runOn_bind_ok (Step.runOn_pure _ _)]
    rw [Step.runOn_bind_ok (Step.runOn_get _)]
    simp only [if_neg hunit, if_pos hfew]
    rfl

/-! ## What calls leave -/

theorem signatures_extended (hm : m.target? = .ok f) (i : NativeInstr) :
    (m.extended f i).signatures = m.signatures := by
  simp [signatures, globals, extended, (unit_of_target? hm).1, Global.name, Global.arity]

theorem signatures_declaring (m : NativeModule) (function : String) (count : Nat) :
    (m.declaring function count).signatures
      = m.signatures ++ (m.added function count).map fun d => (d.name, d.arity) := by
  simp [signatures, globals, declaring, Global.name, Global.arity, Function.comp_def]

theorem functions_declaring (m : NativeModule) (function : String) (count : Nat) :
    (m.declaring function count).functions = m.functions := by
  simp [functions, globals, declaring]

def Covers (m : NativeModule) (callee : String) (count : Nat) : Prop :=
  ∃ arity ≤ count, m.arity? callee = some arity ∧ (callee ∉ intrinsics → arity = count)

/-- Calls in units have as many arguments as their callees have parameters; those of intrinsics may
    have more. -/
def CallsCovered (m : NativeModule) : Prop :=
  ∀ f ∈ m.functions, ∀ dest callee args, .call dest callee args ∈ f.body →
    m.Covers callee args.length

theorem Covers.mono (h : m.Covers callee count) (hm : m.signatures <+: m'.signatures) :
    m'.Covers callee count := by
  obtain ⟨arity, hle, harity, hexact⟩ := h
  exact ⟨arity, hle, arity?_mono hm harity, hexact⟩

theorem intrinsic?_of_not_mem (h : calleeName function ∉ intrinsics) :
    intrinsic? function = none := by
  unfold calleeName intrinsic? at h
  unfold intrinsic?
  split at h <;> simp_all [intrinsics]

theorem arity?_declaring (h : m.Admits function count) : ∃ arity ≤ count,
    (m.declaring function count).arity? (calleeName function) = some arity ∧
      (intrinsic? function = none → arity = count) := by
  rw [arity?_eq_lookup, signatures_declaring, List.lookup_append, ← arity?_eq_lookup, added]
  cases harity : m.arity? (calleeName function) with
  | none =>
    refine ⟨count, Nat.le_refl _, ?_, fun _ => rfl⟩
    change List.lookup (calleeName function) [(calleeName function, (count : Int).toNat)] = _
    rw [List.lookup_cons_self, Int.toNat_natCast]
  | some arity =>
    obtain ⟨hle, hexternal⟩ := h arity harity
    exact ⟨arity, hle, rfl, fun hnone => (hexternal hnone).1⟩

theorem mem_functions_iff_define {g : NativeFunction} :
    g ∈ m.functions ↔ .define g ∈ m.globals := by
  rw [functions, List.mem_filterMap]
  constructor
  · rintro ⟨_ | d, hmem, heq⟩
    · cases heq
      exact hmem
    · cases heq
  · exact fun hmem => ⟨_, hmem, rfl⟩

theorem mem_functions {g : NativeFunction} :
    g ∈ m.functions ↔ .define g ∈ m.earlier ∨ m.unit = some g := by
  rw [mem_functions_iff_define, globals]
  simp

theorem CallsCovered.extended (h : m.CallsCovered) (hm : m.target? = .ok f) {i : NativeInstr}
    (hi : ∀ dest callee args, i = .call dest callee args → m.Covers callee args.length) :
    (m.extended f i).CallsCovered := by
  have hsame : m.signatures <+: (m.extended f i).signatures := by rw [signatures_extended hm]
  intro g hg dest callee args hcall
  rcases mem_functions.1 hg with hg | hg
  · exact (h g (mem_functions.2 (.inl hg)) dest callee args hcall).mono hsame
  · obtain rfl := Option.some.inj hg
    rcases List.mem_append.1 hcall with hcall | hcall
    · have hf := mem_functions.2 (.inr (unit_of_target? hm).1)
      exact (h f hf dest callee args hcall).mono hsame
    · exact (hi dest callee args (List.mem_singleton.1 hcall).symm).mono hsame

theorem signatures_called (hm : m.target? = .ok f) (function : String) (args : List Operand) :
    (m.called f function args).signatures = (m.declaring function args.length).signatures := by
  have htarget : (m.declaring function args.length).target? = .ok f := hm
  exact signatures_extended htarget _

structure Grows (m m' : NativeModule) : Prop where
  signatures : m.signatures <+: m'.signatures
  covered : m.CallsCovered → m'.CallsCovered

namespace Grows

theorem refl (m : NativeModule) : Grows m m := ⟨List.prefix_rfl, id⟩

theorem trans (h : Grows m m') (h' : Grows m' m'') : Grows m m'' :=
  ⟨h.signatures.trans h'.signatures, h'.covered ∘ h.covered⟩

theorem extended (hm : m.target? = .ok f) {i : NativeInstr}
    (hi : ∀ dest callee args, i = .call dest callee args → m.Covers callee args.length) :
    Grows m (m.extended f i) :=
  ⟨by rw [signatures_extended hm], fun h => h.extended hm hi⟩

theorem declaring (m : NativeModule) (function : String) (count : Nat) :
    Grows m (m.declaring function count) := by
  have hgrown : m.signatures <+: (m.declaring function count).signatures := by
    rw [signatures_declaring]
    exact List.prefix_append _ _
  refine ⟨hgrown, fun h g hg dest callee args hcall => ?_⟩
  rw [functions_declaring] at hg
  exact (h g hg dest callee args hcall).mono hgrown

end Grows

theorem signatures_creating (m : NativeModule) (unit : String) :
    (m.creating unit).signatures = m.signatures ++ [(unit, 0)] := by
  rw [signatures, globals]
  simp [creating, signatures, Global.name, Global.arity]

theorem Grows.creating (m : NativeModule) (unit : String) : Grows m (m.creating unit) := by
  have hgrown : m.signatures <+: (m.creating unit).signatures := by
    rw [signatures_creating]
    exact List.prefix_append _ _
  refine ⟨hgrown, fun h g hg dest callee args hcall => ?_⟩
  rcases mem_functions.1 hg with hg | hg
  · exact (h g (mem_functions_iff_define.2 hg) dest callee args hcall).mono hgrown
  · obtain rfl := Option.some.inj hg
    cases hcall

theorem Grows.positioned (m : NativeModule) : Grows m { m with positioned := true } :=
  ⟨List.prefix_rfl, id⟩

def Ready : Phase → NativeModule → Prop
  | .created, m => m.unit.isSome
  | .body, m => ∃ f, m.target? = .ok f
  | _, _ => True

def phaseAfter {α : Type} (p q : Phase) : Except Fault α → Phase
  | .ok _ => q
  | .error _ => p

section Exchanges

variable (c : Elementary) (level : Int) {r : Request Operand} {name : String}
  {outcome : Except Fault (Reply Operand NativeUnit)}

theorem serve_operation (hr : r.IsOperation) (hm : m.target? = .ok f)
    (hrun : ((target c level).serve name r).runOn m = (outcome, m')) :
    Grows m m' ∧ ∃ f', m'.target? = .ok f' := by
  cases r with
  | const v =>
    cases hrun
    exact ⟨.refl m, f, hm⟩
  | binary op left right =>
    have hemit := emit_target? hm (.operator op) fun dest => .binary op dest left right
    cases (Step.runOn_bind_ok hemit).symm.trans hrun
    exact ⟨.extended hm nofun, _, extended_target? hm _⟩
  | call function args =>
    by_cases h : m.Admits function args.length
    · cases (Step.runOn_bind_ok (call_admitted c level hm h)).symm.trans hrun
      have htarget : (m.declaring function args.length).target? = .ok f := hm
      refine ⟨(Grows.declaring m _ _).trans (.extended htarget ?_), _, extended_target? htarget _⟩
      intro dest callee args' hcall
      obtain ⟨-, rfl, rfl⟩ := NativeInstr.call.inj hcall
      obtain ⟨arity, hle, harity, hexact⟩ := arity?_declaring h
      exact ⟨arity, hle, harity, fun hnot => hexact (intrinsic?_of_not_mem hnot)⟩
    · cases (Step.runOn_bind_error (call_not_admitted c level hm h)).symm.trans hrun
      exact ⟨.refl m, f, hm⟩
  | create | position | ret | finalize => exact hr.elim

theorem serve_grows {p q : Phase} (hr : Advances p r q) (hm : Ready p m)
    (hrun : ((target c level).serve name r).runOn m = (outcome, m')) :
    Grows m m' ∧ Ready (phaseAfter p q outcome) m' := by
  cases hr with
  | create unit =>
    have hcreate := create_runOn c level m unit
    by_cases htaken : unit = "" || (m.arity? unit).isSome
    · rw [if_pos htaken] at hcreate
      cases (Step.runOn_bind_error hcreate).symm.trans hrun
      exact ⟨.refl m, trivial⟩
    · rw [if_neg htaken] at hcreate
      cases (Step.runOn_bind_ok hcreate).symm.trans hrun
      exact ⟨.creating m unit, rfl⟩
  | position =>
    obtain ⟨f, hunit⟩ := Option.isSome_iff_exists.1 hm
    cases (Step.runOn_bind_ok (position_runOn c level hunit)).symm.trans hrun
    refine ⟨.positioned m, f, ?_⟩
    simp [target?, hunit]
  | operation hr =>
    obtain ⟨f, hm⟩ := hm
    obtain ⟨hgrows, hready⟩ := serve_operation c level hr hm hrun
    refine ⟨hgrows, ?_⟩
    cases outcome <;> exact hready
  | ret v =>
    obtain ⟨f, hm⟩ := hm
    have hret := ret_runOn c level hm v
    by_cases hreturned : f.hasReturned
    · rw [if_pos hreturned] at hret
      cases (Step.runOn_bind_error hret).symm.trans hrun
      exact ⟨.refl m, f, hm⟩
    · rw [if_neg hreturned] at hret
      cases (Step.runOn_bind_ok hret).symm.trans hrun
      exact ⟨.extended hm nofun, trivial⟩
  | finalize =>
    have hfinalize := finalize_runOn c level m name
    cases hfinish : m.finish c level name with
    | ok u =>
      rw [hfinish] at hfinalize
      cases (Step.runOn_bind_ok hfinalize).symm.trans hrun
      exact ⟨.refl m, trivial⟩
    | error f =>
      rw [hfinish] at hfinalize
      cases (Step.runOn_bind_error hfinalize).symm.trans hrun
      exact ⟨.refl m, trivial⟩

variable {b b' : Backend NativeModule}

theorem answer_grows (h : Ready b.phase b.state)
    (hrun : (Backend.answer (target c level) r).runOn b = (outcome, b')) :
    Ready b'.phase b'.state ∧ Grows b.state b'.state := by
  by_cases hdue : b.IsDue r
  · obtain ⟨phase, hphase⟩ := hdue
    rw [answer_due _ rfl hphase] at hrun
    cases hserve : ((target c level).serve b.unitName r).runOn b.state with
    | mk served s =>
      obtain ⟨hgrows, hready⟩ := serve_grows c level hphase h hserve
      rw [hserve] at hrun
      cases served with
      | ok reply =>
        cases hrun
        exact ⟨hready, hgrows⟩
      | error f =>
        cases hrun
        exact ⟨hready, hgrows⟩
  · obtain ⟨e, he⟩ := answer_not_due _ hdue
    cases he.symm.trans hrun
    exact ⟨h, .refl _⟩

theorem exchanges_grow (h : Ready b.phase b.state) {rs : List (Request Operand)}
    {x : Exchange NativeModule Operand NativeUnit}
    (hx : x ∈ exchanges (target c level) b rs) :
    Ready x.before.phase x.before.state ∧ Grows b.state x.before.state := by
  induction rs generalizing b with
  | nil => cases hx
  | cons r rs ih =>
    cases hanswer : (Backend.answer (target c level) r).runOn b with
    | mk outcome b' =>
      rw [Backend.exchanges_cons _ hanswer] at hx
      rcases List.mem_cons.1 hx with rfl | hx
      · exact ⟨h, .refl _⟩
      · obtain ⟨hready, hgrows⟩ := answer_grows c level h hanswer
        obtain ⟨hready', hgrows'⟩ := ih hready hx
        exact ⟨hready', hgrows.trans hgrows'⟩

theorem answer_call_admitted {args : List Operand} (hb : b.phase = .body)
    (hm : b.state.target? = .ok f) (h : b.state.Admits function args.length) :
    (Backend.answer (target c level) (.call function args)).runOn b
      = (.ok (.value (.result (f.freshName .call))),
          { b with state := b.state.called f function args }) := by
  have hdue : Advances .body (.call function args) .body := .operation trivial
  rw [answer_due _ hb hdue, Target.serve, Step.runOn_bind_ok (call_admitted c level hm h)]
  simp only [Step.runOn_pure, Request.unitName, hb]

theorem answer_call_not_admitted {args : List Operand} (hb : b.phase = .body)
    (hm : b.state.target? = .ok f) (h : ¬ b.state.Admits function args.length) :
    (Backend.answer (target c level) (.call function args)).runOn b
      = (.error (refusal function args.length), b) := by
  have hdue : Advances .body (.call function args) .body := .operation trivial
  rw [answer_due _ hb hdue, Target.serve,
    Step.runOn_bind_error (call_not_admitted c level hm h)]

theorem arity?_of_granted {args : List Operand} {reply : Reply Operand NativeUnit}
    (h : Ready b.phase b.state)
    (hrun : (Backend.answer (target c level) (.call function args)).runOn b = (.ok reply, b')) :
    ∃ arity ≤ args.length, b'.state.arity? (calleeName function) = some arity ∧
      (intrinsic? function = none → arity = args.length) := by
  have hdue {p q : Phase} (h : Advances p (Request.call function args) q) : p = .body := by
    cases h
    rfl
  have hbody : b.phase = .body := hdue (Backend.answer_eq_ok _ hrun)
  rw [hbody] at h
  obtain ⟨f, hm⟩ := h
  by_cases hadmits : b.state.Admits function args.length
  · cases (answer_call_admitted c level hbody hm hadmits).symm.trans hrun
    obtain ⟨arity, hle, harity, hexact⟩ := arity?_declaring hadmits
    refine ⟨arity, hle, arity?_mono ?_ harity, hexact⟩
    change _ <+: (b.state.called f function args).signatures
    rw [signatures_called hm]
  · cases (answer_call_not_admitted c level hbody hm hadmits).symm.trans hrun

/-- What becomes of a call depends on the number of parameters that its name already has. -/
theorem answer_call_of_arity {args : List Operand} {arity : Nat} (hb : b.phase = .body)
    (hm : b.state.target? = .ok f) (harity : b.state.arity? (calleeName function) = some arity)
    (hrun : (Backend.answer (target c level) (.call function args)).runOn b = (outcome, b')) :
    (intrinsic? function = none → arity ≠ args.length →
      b' = b ∧ outcome = .error (.backend (.wrongArgumentCount function args.length))) ∧
    (intrinsic? function ≠ none →
      (args.length < arity → b' = b ∧ outcome = .error (.missingArgument function)) ∧
      (arity ≤ args.length → ∃ v, outcome = .ok (.value v))) := by
  have hrefused (h : ¬ b.state.Admits function args.length) :
      b' = b ∧ outcome = .error (refusal function args.length) := by
    have hanswer := (answer_call_not_admitted c level hb hm h).symm.trans hrun
    exact ⟨(congrArg Prod.snd hanswer).symm, (congrArg Prod.fst hanswer).symm⟩
  refine ⟨fun hnone hne => ?_, fun hintrinsic => ⟨fun hfew => ?_, fun henough => ?_⟩⟩
  · have hrefusal := hrefused fun hadmits => hne ((hadmits arity harity).2 hnone).1
    rwa [refusal, hnone] at hrefusal
  · have hrefusal := hrefused fun hadmits => Nat.not_le.2 hfew (hadmits arity harity).1
    rwa [refusal, if_neg (by simpa using hintrinsic)] at hrefusal
  · have hadmits : b.state.Admits function args.length := by
      intro arity' harity'
      cases harity.symm.trans harity'
      exact ⟨henough, fun hnone => absurd hnone hintrinsic⟩
    have hanswer := (answer_call_admitted c level hb hm hadmits).symm.trans hrun
    exact ⟨_, (congrArg Prod.fst hanswer).symm⟩

/-- Whatever is asked for, all calls that are in the module go with their declarations. After a name
    was called, a call of it with another number of arguments is refused and changes nothing, unless
    the name becomes an intrinsic: then it fails when an argument is missing, and is granted when
    there are more. -/
theorem calls_keep_arities (rs : List (Request Operand)) :
    let xs := exchanges (target c level) (.fresh .empty) rs
    (∀ x ∈ xs, x.after.state.CallsCovered) ∧
    ∀ (before between later : List (Exchange NativeModule Operand NativeUnit)) x y,
      xs = before ++ x :: (between ++ y :: later) →
      ∀ function args args', x.request = .call function args → x.outcome.isOk →
        y.request = .call function args' → y.before.phase = .body → args'.length ≠ args.length →
        (intrinsic? function = none → y.after = y.before ∧
          y.outcome = .error (.backend (.wrongArgumentCount function args'.length))) ∧
        (intrinsic? function ≠ none → ∃ arity ≤ args.length,
          y.before.state.arity? (calleeName function) = some arity ∧
          (args'.length < arity →
            y.after = y.before ∧ y.outcome = .error (.missingArgument function)) ∧
          (arity ≤ args'.length → ∃ v, y.outcome = .ok (.value v))) := by
  intro xs
  have hfresh : Ready (Backend.fresh empty : Backend NativeModule).phase empty := trivial
  have hempty : empty.CallsCovered := nofun
  refine ⟨fun x hx => ?_, ?_⟩
  · obtain ⟨hready, hgrows⟩ := exchanges_grow c level hfresh hx
    exact (answer_grows c level hready (Backend.mem_exchanges hx)).2.covered (hgrows.covered hempty)
  intro before between later x y hxs function args args' hx hok hy hbody hne
  have hxmem : x ∈ xs := by simp [hxs]
  obtain ⟨hready, -⟩ := exchanges_grow c level hfresh hxmem
  have hxrun := Backend.mem_exchanges hxmem
  obtain ⟨reply, hreply⟩ : ∃ reply, x.outcome = .ok reply := by
    cases houtcome : x.outcome with
    | ok reply => exact ⟨reply, rfl⟩
    | error fault => simp [houtcome, Except.isOk, Except.toBool] at hok
  rw [hx, hreply] at hxrun
  obtain ⟨arity, hle, harity, hexact⟩ := arity?_of_granted c level hready hxrun
  obtain ⟨rs', hlater⟩ := Backend.exchanges_eq_append _ hxs
  have hymem : y ∈ exchanges (target c level) x.after rs' := by simp [← hlater]
  obtain ⟨hready', hgrows⟩ := exchanges_grow c level (answer_grows c level hready hxrun).1 hymem
  have hyrun := Backend.mem_exchanges hymem
  -- the name still has the number of parameters of its first call
  have harity' := arity?_mono hgrows.signatures harity
  rw [hbody] at hready'
  obtain ⟨f, hm⟩ := hready'
  rw [hy] at hyrun
  obtain ⟨hexternal, hintrinsic⟩ := answer_call_of_arity c level hbody hm harity' hyrun
  refine ⟨fun hnone => hexternal hnone fun heq => hne ?_, fun hsome => ?_⟩
  · exact heq.symm.trans (hexact hnone)
  · obtain ⟨hfew, henough⟩ := hintrinsic hsome
    exact ⟨arity, hle, harity', hfew, henough⟩

end Exchanges

/-- A sine with two arguments after one of its own is refused, such a square root is not. -/
theorem calls_keep_arities_sine_and_root :
    let one : Operand := .const 1.0
    let xs := exchanges (target .platform 0) (.fresh .empty) [.create "unit" .entry, .position,
      .call "sin" [one], .call "sqrt" [one], .call "sin" [one, one], .call "sqrt" [one, one]]
    ∃ sine root, xs.drop 4 = [sine, root] ∧
      sine.outcome = .error (.backend (.wrongArgumentCount "sin" 2)) ∧
      ∃ v, root.outcome = .ok (.value v) := by
  intro one xs
  have hlist (b : Backend NativeModule) (r₀ r₁ r₂ r₃ r₄ r₅ : Request Operand) :
      ∃ x₀ x₁ x₂ x₃ x₄ x₅, exchanges (target .platform 0) b [r₀, r₁, r₂, r₃, r₄, r₅]
          = [x₀, x₁, x₂, x₃, x₄, x₅] ∧
        x₂.request = r₂ ∧ x₃.request = r₃ ∧ x₄.request = r₄ ∧ x₅.request = r₅ :=
    ⟨_, _, _, _, _, _, rfl, rfl, rfl, rfl, rfl⟩
  obtain ⟨x₀, x₁, x₂, x₃, x₄, x₅, hxs, h₂, h₃, h₄, h₅⟩ := hlist (.fresh .empty)
    (.create "unit" .entry) .position (.call "sin" [one]) (.call "sqrt" [one])
    (.call "sin" [one, one]) (.call "sqrt" [one, one])
  change xs = _ at hxs
  have hrun : xs.map (fun x => (x.before.phase, x.outcome.isOk)) = [(.idle, true),
      (.created, true), (.body, true), (.body, true), (.body, false), (.body, true)] := by
    decide +kernel
  have hdeclared : xs.map (·.before.state.arity? "llvm.sqrt.f64")
      = [none, none, none, none, some 1, some 1] := by
    decide +kernel
  simp only [hxs, List.map_cons, List.map_nil, List.cons.injEq, Prod.mk.injEq, and_true]
    at hrun hdeclared
  obtain ⟨-, -, ⟨-, hsine⟩, ⟨-, hroot⟩, ⟨hbody, -⟩, hbody', -⟩ := hrun
  obtain ⟨-, -, -, -, -, hone⟩ := hdeclared
  obtain ⟨-, hlater⟩ := calls_keep_arities .platform 0 [.create "unit" .entry, .position,
    .call "sin" [one], .call "sqrt" [one], .call "sin" [one, one], .call "sqrt" [one, one]]
  obtain ⟨hsines, -⟩ := hlater [x₀, x₁] [x₃] [x₅] x₂ x₄ hxs "sin" _ _ h₂ hsine h₄ hbody (by decide)
  obtain ⟨-, hroots⟩ := hlater [x₀, x₁, x₂] [x₄] [] x₃ x₅ hxs "sqrt" _ _ h₃ hroot h₅ hbody'
    (by decide)
  obtain ⟨_, -, harity, -, hgranted⟩ := hroots nofun
  cases harity.symm.trans hone
  exact ⟨x₄, x₅, by rw [hxs]; rfl, (hsines rfl).2, hgranted (by decide)⟩

end NativeModule

end ArithCompiler

import Mathlib.Data.List.Nodup
import ArithCompiler.CommandLine.Run
import ArithCompiler.Proofs.Compiler.Relevance

set_option autoImplicit false

/-!
# Settings

Options are what is set of each key. A setting replaces the one with its key and leaves all others,
so of many settings the last of each key counts, and the order matters within a key only. Options
with the same settings run the same, in whatever order the definitions among them were made.
-/

namespace ArithCompiler

namespace Bindings

variable {α : Type} {b b' : Bindings α}

theorem keys_set (b : Bindings α) (name : String) (value : α) :
    (b.set name value).map Prod.fst
      = if name ∈ b.map Prod.fst then b.map Prod.fst else b.map Prod.fst ++ [name] := by
  induction b with
  | nil => rfl
  | cons p b ih =>
    obtain ⟨n, v⟩ := p
    by_cases h : n = name
    · simp [set, h]
    · rw [set, if_neg h, List.map_cons, ih]
      by_cases hmem : name ∈ b.map Prod.fst <;> simp [hmem, Ne.symm h]

def Distinct (b : Bindings α) : Prop := (b.map Prod.fst).Nodup

namespace Distinct

theorem set (h : Distinct b) (name : String) (value : α) : Distinct (b.set name value) := by
  rw [Distinct, keys_set]
  split
  · exact h
  · rename_i hnew
    exact List.nodup_append.2 ⟨h, List.nodup_singleton name, fun n hn m hm heq =>
      hnew (List.mem_singleton.1 hm ▸ heq ▸ hn)⟩

theorem get?_eq_some_iff (h : Distinct b) {name : String} {value : α} :
    b.get? name = some value ↔ (name, value) ∈ b := by
  refine ⟨mem_of_get?, fun hmem => ?_⟩
  obtain ⟨before, after, rfl⟩ := List.append_of_mem hmem
  refine List.lookup_eq_some_iff.2 ⟨before, after, rfl, fun p hp => ?_⟩
  rw [Distinct, List.map_append] at h
  have hne := (List.nodup_append.1 h).2.2 p.1 (List.mem_map_of_mem hp) name
    (List.mem_map_of_mem List.mem_cons_self)
  exact bne_iff_ne.2 hne.symm

theorem get?_perm (h : Distinct b) (hperm : b.Perm b') (name : String) :
    b.get? name = b'.get? name := by
  have h' : Distinct b' := (hperm.map Prod.fst).nodup_iff.1 h
  refine Option.ext fun value => ?_
  rw [h.get?_eq_some_iff, h'.get?_eq_some_iff, hperm.mem_iff]

theorem perm (h : Distinct b) (h' : Distinct b') (hget : ∀ name, b.get? name = b'.get? name) :
    b.Perm b' := by
  refine (List.perm_ext_iff_of_nodup (List.Nodup.of_map _ h) (List.Nodup.of_map _ h')).2 ?_
  rintro ⟨name, value⟩
  rw [← h.get?_eq_some_iff, ← h'.get?_eq_some_iff, hget]

end Distinct

theorem get?_setAll_perm {defaults : Bindings α} (h : Distinct b) (hperm : b.Perm b')
    (name : String) : (defaults.setAll b).get? name = (defaults.setAll b').get? name := by
  have hreverse : Distinct b.reverse := ((b.reverse_perm.map Prod.fst).nodup_iff).2 h
  have hperms : b.reverse.Perm b'.reverse :=
    (b.reverse_perm.trans hperm).trans b'.reverse_perm.symm
  rw [get?_setAll, get?_setAll, hreverse.get?_perm hperms]

end Bindings

/-! ## Settings and their keys -/

inductive Setting where
  | engine (kind : EngineKind)
  | output (output : Output)
  | level (level : Nat)
  | define (name : String) (value : Float)
  | noMath
  | verbose
  | source (text : String)

namespace Setting

inductive Key where
  | engine
  | output
  | level
  | define (name : String)
  | math
  | verbose
  | source
  deriving DecidableEq

def key : Setting → Key
  | engine _ => .engine
  | output _ => .output
  | level _ => .level
  | define name _ => .define name
  | noMath => .math
  | verbose => .verbose
  | source _ => .source

def last? (k : Key) (settings : List Setting) : Option Setting :=
  (settings.filter (·.key = k)).getLast?

theorem last?_cons (k : Key) (s : Setting) (settings : List Setting) :
    last? k (s :: settings) = (last? k settings).or (if s.key = k then some s else none) := by
  rw [last?, List.filter_cons]
  by_cases h : s.key = k
  · rw [if_pos (decide_eq_true h), if_pos h, List.getLast?_cons, ← last?]
    cases last? k settings <;> rfl
  · rw [if_neg (by simpa using h), if_neg h, Option.or_none, ← last?]

end Setting

namespace Options

open Setting (Key last?)

def put (o : Options) : Setting → Options
  | .engine engine => { o with engine }
  | .output output => { o with output }
  | .level level => { o with level }
  | .define name value => { o with defines := o.defines.set name value }
  | .noMath => { o with math := false }
  | .verbose => { o with verbose := true }
  | .source text => { o with source := some text }

def putAll (o : Options) (settings : List Setting) : Options := settings.foldl put o

def setting? (o : Options) : Key → Option Setting
  | .engine => some (.engine o.engine)
  | .output => some (.output o.output)
  | .level => some (.level o.level)
  | .define name => (o.defines.get? name).map (.define name)
  | .math => if o.math then none else some .noMath
  | .verbose => if o.verbose then some .verbose else none
  | .source => o.source.map .source

theorem setting?_put (o : Options) (s : Setting) (k : Key) :
    (o.put s).setting? k = if s.key = k then some s else o.setting? k := by
  cases s with
  | define name value =>
    cases k with
    | define other =>
      simp only [put, setting?, Setting.key, Bindings.get?_set, Key.define.injEq]
      by_cases h : name = other
      · simp [h]
      · simp [h, Ne.symm h]
    | _ => rfl
  | _ => cases k <;> rfl

/-- Of each key the last setting counts. -/
theorem setting?_putAll (o : Options) (settings : List Setting) (k : Key) :
    (o.putAll settings).setting? k = (last? k settings).or (o.setting? k) := by
  induction settings generalizing o with
  | nil => rfl
  | cons s settings ih =>
    change ((o.put s).putAll settings).setting? k = _
    rw [ih, setting?_put, Setting.last?_cons, Option.or_assoc]
    split <;> rfl

theorem putAll_distinct {o : Options} (h : o.defines.Distinct) (settings : List Setting) :
    (o.putAll settings).defines.Distinct := by
  induction settings generalizing o with
  | nil => exact h
  | cons s settings ih =>
    refine ih (o := o.put s) ?_
    cases s with
    | define name value => exact h.set name value
    | _ => exact h

/-! ## Options that say the same -/

/-- The same of everything, the definitions in any order. -/
structure Same (o o' : Options) : Prop where
  engine : o.engine = o'.engine
  output : o.output = o'.output
  level : o.level = o'.level
  defines : o.defines.Perm o'.defines
  math : o.math = o'.math
  verbose : o.verbose = o'.verbose
  source : o.source = o'.source

variable {o o' : Options}

theorem same_of_setting? (h : o.defines.Distinct) (h' : o'.defines.Distinct)
    (hset : ∀ k, o.setting? k = o'.setting? k) : o.Same o' where
  engine := by simpa [setting?] using hset .engine
  output := by simpa [setting?] using hset .output
  level := by simpa [setting?] using hset .level
  defines := by
    refine h.perm h' fun name => ?_
    have hinjective : Function.Injective (Setting.define name) := fun _ _ heq =>
      (Setting.define.inj heq).2
    exact Option.map_injective hinjective (hset (.define name))
  math := by
    have hmath := hset .math
    cases hm : o.math <;> cases hm' : o'.math <;> simp_all [setting?]
  verbose := by
    have hverbose := hset .verbose
    cases hv : o.verbose <;> cases hv' : o'.verbose <;> simp_all [setting?]
  source := Option.map_injective (fun _ _ heq => Setting.source.inj heq) (hset .source)

/-- The names that are defined have the same constants, whatever is defined before. -/
theorem Same.scope_agreeOn (h : o.Same o') (hd : o.defines.Distinct) (e : Expr) :
    o.scope.AgreeOn o'.scope e := by
  refine ⟨fun x _ => ?_, fun c _ => ?_⟩
  · simp only [scope, Scope.defineAll, h.math]
    exact Bindings.get?_setAll_perm hd h.defines x
  · simp only [scope, Scope.defineAll, h.math]

end Options

theorem Engine.compilePhase_agreeOn (engine : Engine) {s s' : Scope} {e : Expr}
    (h : s.AgreeOn s' e) :
    engine.compilePhase (.scope s) e = engine.compilePhase (.scope s') e :=
  congrArg (fun code => engine.runOf (Step.runOn code (.fresh engine.initial)))
    ((engine.compiler .missing .balanced).inScope_compilePhase h)

namespace CommandLine

open Math (Elementary)

variable {o o' : Options}

theorem generate_same (h : o.Same o') (hd : o.defines.Distinct) (c : Elementary) (e : Expr) :
    generate c o e = generate c o' e := by
  have hrun := (o'.engine.engine c o'.level).compilePhase_agreeOn (h.scope_agreeOn hd e)
  simp only [generate, h.engine, h.level, h.verbose, h.output, hrun]

theorem perform_same (h : o.Same o') (hd : o.defines.Distinct) (c : Elementary)
    (source : String) : perform c o source = perform c o' source := by
  simp only [perform, h.output, generate_same h hd]

end CommandLine

end ArithCompiler

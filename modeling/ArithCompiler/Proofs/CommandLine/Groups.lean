import Mathlib.Tactic.IntervalCases
import ArithCompiler.Proofs.CommandLine.Settings

set_option autoImplicit false

/-!
# Groups of arguments

A command line is made of groups of one or two arguments, each of which makes one setting. The
arguments are read group by group, so what is read is what the groups set, and groups may change
places unless they set the same key.
-/

namespace ArithCompiler

open Setting (Key last?)

/-! ## How settings are given -/

inductive Spelling : Setting → List String → Prop
  | engine (kind : EngineKind) : Spelling (.engine kind) ["--backend", kind.name]
  | output (output : Output) : Spelling (.output output) ["--emit", output.name]
  | level {n : Nat} (hn : n ≤ 3) : Spelling (.level n) ["-O", toString n]
  | levelSuffix {n : Nat} (hn : n ≤ 3) : Spelling (.level n) ["-O" ++ toString n]
  | define {name text : String} {value : Float} (hname : name ≠ "") (heq : '=' ∉ name.toList)
      (htext : Number.ofText? text = some value) :
      Spelling (.define name value) ["-D", name ++ "=" ++ text]
  | noMath : Spelling .noMath ["--no-math"]
  | verbose : Spelling .verbose ["--verbose"]
  | verboseShort : Spelling .verbose ["-v"]
  | source {text : String} (hminus : text.toList.head? ≠ some '-') :
      Spelling (.source text) [text]

structure Group where
  setting : Setting
  args : List String
  spelling : Spelling setting args

def Group.key (g : Group) : Key := g.setting.key

namespace Options

/-! ## One group -/

section Steps

variable {o o' : Options} {arg value : String} (rest : List String)

theorem read_valued (flag : ValueFlag) (harg : classify arg = .valued flag)
    (hset : o.set flag value = .ok o') : o.read (arg :: value :: rest) = o'.read rest := by
  rw [read, harg]
  simp only [hset]

theorem read_levelSuffix {level : String} (harg : classify arg = .levelSuffix level)
    (hset : o.setLevel level = .ok o') : o.read (arg :: rest) = o'.read rest := by
  rw [read, harg]
  simp only [hset]

theorem read_noMath (harg : classify arg = .noMath) :
    o.read (arg :: rest) = { o with math := false }.read rest := by
  rw [read, harg]

theorem read_verbose (harg : classify arg = .verbose) :
    o.read (arg :: rest) = { o with verbose := true }.read rest := by
  rw [read, harg]

theorem read_expression (harg : classify arg = .expression) (ho : o.source = none) :
    o.read (arg :: rest) = { o with source := some arg }.read rest := by
  rw [read, harg]
  simp only [ho]

/-- All that is left after two minus signs is one expression. -/
theorem read_separator (hrest : rest ≠ []) (ho : o.source = none) :
    o.read ("--" :: rest) = .ok { o with source := some (" ".intercalate rest) } := by
  have harg : classify "--" = .separator := by decide
  obtain ⟨arg, rest, rfl⟩ := List.exists_cons_of_ne_nil hrest
  rw [read, harg]
  simp only [takeAll, ho]
  rfl

end Steps

theorem level?_toString {n : Nat} (h : n ≤ 3) : level? (toString n) = some n := by
  interval_cases n <;> decide

theorem classify_levelSuffix {n : Nat} (h : n ≤ 3) :
    classify ("-O" ++ toString n) = .levelSuffix (toString n) := by
  interval_cases n <;> decide

theorem definition?_spelled {name text : String} (hname : name ≠ "") (heq : '=' ∉ name.toList) :
    definition? (name ++ "=" ++ text) = some (name, text) := by
  have hbefore : ∀ c ∈ name.toList, (c != '=') = true := fun c hc =>
    bne_iff_ne.2 fun h => heq (h ▸ hc)
  have hchars : (name ++ "=" ++ text).toList = name.toList ++ '=' :: text.toList := by
    simp [String.toList_append]
  have htake : (name.toList ++ '=' :: text.toList).takeWhile (· != '=') = name.toList := by
    rw [List.takeWhile_append_of_pos hbefore]
    exact List.append_nil _
  have hdrop : (name.toList ++ '=' :: text.toList).dropWhile (· != '=') = '=' :: text.toList :=
    List.dropWhile_append_of_pos hbefore
  obtain ⟨c, cs, hcs⟩ := List.exists_cons_of_ne_nil (fun h => hname (String.toList_eq_nil_iff.1 h))
  simp only [definition?, hchars]
  rw [htake, hdrop, hcs]
  change some (String.ofList (c :: cs), String.ofList text.toList) = _
  rw [← hcs, String.ofList_toList, String.ofList_toList]

/-- The arguments that are flags, besides `-O` with a character after it. -/
def flags : List String :=
  ["--help", "-h", "--backend", "--emit", "-O", "-D", "--no-math", "-v", "--verbose", "--"]

/-- An argument that is no flag is an expression, unless it begins with a minus and does not look
    like one. -/
theorem classify_plain {arg : String} (hflags : arg ∉ flags)
    (hlevel : ∀ c, arg.toList ≠ ['-', 'O', c]) :
    classify arg = if arg.toList.head? = some '-' && 1 < arg.toList.length &&
      !looksLikeExpression arg then .unknown else .expression := by
  simp only [flags, List.mem_cons, List.not_mem_nil, or_false, not_or] at hflags
  obtain ⟨hhelp, hh, hbackend, hemit, hO, hD, hnomath, hv, hverbose, hseparator⟩ := hflags
  have hvalued : ValueFlag.ofName? arg = none := by
    simp [ValueFlag.ofName?, ValueFlag.name, Ne.symm hbackend, Ne.symm hemit, Ne.symm hO, Ne.symm hD]
  rw [classify, hvalued]
  simp [hhelp, hh, hnomath, hv, hverbose, hseparator]

theorem classify_expression {arg : String} (hminus : arg.toList.head? ≠ some '-') :
    classify arg = .expression := by
  have hall : ∀ flag ∈ flags, flag.toList.head? = some '-' := by decide
  rw [classify_plain (fun hmem => hminus (hall arg hmem)) fun c hc => hminus (by rw [hc]; rfl),
    if_neg (by simp [hminus])]

theorem read_group {s : Setting} {args : List String} (h : Spelling s args) {o : Options}
    (ho : s.key = .source → o.source = none) (rest : List String) :
    o.read (args ++ rest) = (o.put s).read rest := by
  cases h with
  | engine kind =>
    refine read_valued rest .backend (by decide) ?_
    cases kind <;> rfl
  | output output =>
    refine read_valued rest .emit (by decide) ?_
    cases output <;> rfl
  | level hn =>
    refine read_valued rest .level (by decide) ?_
    rw [set, setLevel, level?_toString hn]
    rfl
  | levelSuffix hn =>
    refine read_levelSuffix rest (classify_levelSuffix hn) ?_
    rw [setLevel, level?_toString hn]
    rfl
  | define hname heq htext =>
    refine read_valued rest .define (by decide) ?_
    simp only [set, definition?_spelled hname heq, htext]
    rfl
  | noMath => exact read_noMath rest (by decide)
  | verbose => exact read_verbose rest (by decide)
  | verboseShort => exact read_verbose rest (by decide)
  | source hminus => exact read_expression rest (classify_expression hminus) (ho rfl)

/-! ## All groups -/

theorem put_source {s : Setting} (h : s.key ≠ .source) (o : Options) :
    (o.put s).source = o.source := by
  cases s with
  | source text => exact absurd rfl h
  | _ => rfl

/-- By induction on the groups: an expression is to come only while there is none. -/
theorem read_groups {gs : List Group} {o : Options} (hone : gs.countP (·.key = .source) ≤ 1)
    (ho : o.source = none ∨ gs.countP (·.key = .source) = 0) (rest : List String) :
    o.read (gs.flatMap Group.args ++ rest) = (o.putAll (gs.map Group.setting)).read rest := by
  induction gs generalizing o with
  | nil => rfl
  | cons g gs ih =>
    rw [List.countP_cons] at hone ho
    rw [List.flatMap_cons, List.append_assoc]
    by_cases hkey : g.key = .source
    · rw [if_pos (decide_eq_true hkey)] at hone ho
      have hnone : o.source = none := ho.resolve_right (Nat.succ_ne_zero _)
      rw [read_group g.spelling fun _ => hnone]
      exact ih (by omega) (.inr (by omega))
    · rw [if_neg (by simpa using hkey), Nat.add_zero] at hone ho
      rw [read_group g.spelling fun hsource => absurd hsource hkey]
      exact ih hone (ho.imp_left fun hnone => (put_source hkey o).trans hnone)

/-- The same groups in another order, those with the same key in the same one. -/
def Reordered (gs gs' : List Group) : Prop :=
  ∀ k, gs'.filter (·.key = k) = gs.filter (·.key = k)

theorem reordered_swap {g g' : Group} (before after : List Group) (h : g.key ≠ g'.key) :
    Reordered (before ++ g :: g' :: after) (before ++ g' :: g :: after) := by
  intro k
  rw [List.filter_append, List.filter_append]
  congr 1
  by_cases hk : g.key = k
  · have hk' : g'.key ≠ k := fun hk' => h (hk.trans hk'.symm)
    simp [hk, hk']
  · simp [List.filter_cons, hk]

def given? (k : Key) (gs : List Group) : Option Setting :=
  (gs.filter (·.key = k)).getLast?.map Group.setting

def settled (gs : List Group) : Options := default.putAll (gs.map Group.setting)

variable {gs gs' : List Group}

theorem parse_eq_settled (h : gs.countP (·.key = .source) ≤ 1) :
    parse (gs.flatMap Group.args) = .ok (settled gs) := by
  have hread := read_groups (o := default) h (.inl rfl) []
  rwa [List.append_nil] at hread

theorem setting?_settled (gs : List Group) (k : Key) :
    (settled gs).setting? k = (given? k gs).or (default.setting? k) := by
  rw [settled, setting?_putAll, last?, given?, List.filter_map, List.getLast?_map]
  rfl

theorem settled_distinct (gs : List Group) : (settled gs).defines.Distinct :=
  putAll_distinct (o := default) List.nodup_nil _

theorem settled_source (h : gs.countP (·.key = .source) = 0) : (settled gs).source = none := by
  have hgiven : given? .source gs = none := by
    rw [List.countP_eq_length_filter, List.length_eq_zero_iff] at h
    rw [given?, h]
    rfl
  have hsetting := setting?_settled gs .source
  rw [hgiven] at hsetting
  exact Option.map_eq_none_iff.1 hsetting

theorem Reordered.count (h : Reordered gs gs') (k : Key) :
    gs'.countP (·.key = k) = gs.countP (·.key = k) := by
  rw [List.countP_eq_length_filter, h, List.countP_eq_length_filter]

theorem Reordered.same (h : Reordered gs gs') : (settled gs').Same (settled gs) := by
  refine same_of_setting? (settled_distinct gs') (settled_distinct gs) fun k => ?_
  rw [setting?_settled, setting?_settled, given?, h, ← given?]

/-- Groups are read in any order. Of each key the options have the last setting, or that of no
    arguments at all. So groups that change places without passing another one of their key give the
    same options, and runs with them are the same. Without an expression among the groups, two minus
    signs make one of all that is left, whatever it is, and nothing else changes. -/
theorem parse_groups (h : gs.countP (·.key = .source) ≤ 1) :
    ∃ o, parse (gs.flatMap Group.args) = .ok o ∧
      (∀ k, o.setting? k = (given? k gs).or (default.setting? k)) ∧
      (∀ gs', Reordered gs gs' → (∃ o', parse (gs'.flatMap Group.args) = .ok o' ∧ o'.Same o) ∧
        ∀ c stdin, CommandLine.attempt c (gs'.flatMap Group.args) stdin
          = CommandLine.attempt c (gs.flatMap Group.args) stdin) ∧
      (gs.countP (·.key = .source) = 0 → ∀ rest ≠ [],
        parse (gs.flatMap Group.args ++ "--" :: rest)
          = .ok { o with source := some (" ".intercalate rest) }) := by
  refine ⟨_, parse_eq_settled h, setting?_settled gs, fun gs' hreordered => ?_,
    fun hnone rest hrest => ?_⟩
  · have hparse := parse_eq_settled ((hreordered.count .source).trans_le h)
    refine ⟨⟨_, hparse, hreordered.same⟩, fun c stdin => ?_⟩
    simp only [CommandLine.attempt, parse_eq_settled h, hparse, CommandLine.sourceOf,
      hreordered.same.source]
    exact CommandLine.perform_same hreordered.same (settled_distinct gs') c _
  · rw [parse, read_groups h (.inl rfl)]
    exact read_separator rest hrest (settled_source hnone)

/-- A constant that is defined twice has its last value, and the second definition may come before
    the other options. What follows two minus signs are no flags. -/
theorem parse_groups_defined_twice :
    let first : Group := ⟨.define "x" 1.0, ["-D", "x=1"],
      @Spelling.define "x" "1" 1.0 (by decide) (by decide) (by decide)⟩
    let second : Group := ⟨.define "x" 2.0, ["-D", "x=2"],
      @Spelling.define "x" "2" 2.0 (by decide) (by decide) (by decide)⟩
    let level : Group := ⟨.level 3, ["-O3"], .levelSuffix (by decide)⟩
    [first, level, second].countP (·.key = .source) ≤ 1 ∧
    Reordered [first, level, second] [first, second, level] ∧
    ∃ o o', parse ["-D", "x=1", "-O3", "-D", "x=2"] = .ok o ∧
      o.setting? (.define "x") = some (.define "x" 2.0) ∧
      parse ["-D", "x=1", "-D", "x=2", "-O3"] = .ok o' ∧ o'.Same o ∧
      parse ["-D", "x=1", "-O3", "-D", "x=2", "--", "-v", "--"]
        = .ok { o with source := some "-v --" } := by
  intro first second level
  have hone : [first, level, second].countP (·.key = .source) ≤ 1 := by decide
  have hreordered : Reordered [first, level, second] [first, second, level] :=
    reordered_swap [first] [] (by decide)
  obtain ⟨o, hparse, hset, hsame, hseparator⟩ := parse_groups hone
  obtain ⟨⟨o', hparse', ho'⟩, -⟩ := hsame _ hreordered
  exact ⟨hone, hreordered, o, o', hparse, hset _, hparse', ho',
    hseparator (by decide) ["-v", "--"] (by decide)⟩

end Options

end ArithCompiler

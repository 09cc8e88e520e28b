import ArithCompiler.Proofs.Grammar.Composition
import ArithCompiler.Proofs.Number.Reading
import ArithCompiler.Proofs.Tree.Structure

set_option autoImplicit false

/-!
# Trees are read back from their texts

The text of a tree is scanned to tokens that derive the tree, at the production that the tightness
of its top operator asks for. Parentheses stand where an operand is too loose.
-/

namespace ArithCompiler

open Grammar (Derives Phrase Spells scans_name spells_arguments)
open Lexer (Scans Word gap_blank scans_word)

namespace Tree

structure Nameable (e : Expr) : Prop where
  names : ∀ x ∈ e.names, IsIdentifier x
  functions : ∀ c ∈ e.calls, IsIdentifier c.1

namespace Nameable

variable {op : Operator} {l r : Expr} {f : String} {args : List Expr}

theorem left (h : Nameable (.binary op l r)) : Nameable l :=
  ⟨fun x hx => h.names x (List.mem_append_left _ hx),
    fun c hc => h.functions c (List.mem_append_left _ hc)⟩

theorem right (h : Nameable (.binary op l r)) : Nameable r :=
  ⟨fun x hx => h.names x (List.mem_append_right _ hx),
    fun c hc => h.functions c (List.mem_append_right _ hc)⟩

theorem argument (h : Nameable (.call f args)) {a : Expr} (ha : a ∈ args) : Nameable a :=
  ⟨fun x hx => h.names x ((mem_collect_call _ _ _).2 (.inl ⟨a, ha, hx⟩)),
    fun c hc => h.functions c ((mem_collect_call _ _ _).2 (.inl ⟨a, ha, hc⟩))⟩

theorem function (h : Nameable (.call f args)) : IsIdentifier f :=
  h.functions (f, args.length) ((mem_collect_call _ _ _).2 (.inr (List.mem_singleton.2 rfl)))

end Nameable

/-- The trees that are their own text read back: numbers are finite, and names could be written in a
    source. -/
structure Writable (e : Expr) : Prop where
  finite : ∀ v ∈ e.numbers, v.isFinite
  names : ∀ x ∈ e.names, IsIdentifier x
  functions : ∀ c ∈ e.calls, IsIdentifier c.1

namespace Writable

variable {e : Expr}

theorem subtree {t : Expr} (h : Writable e) (ht : Subtree t e) : Writable t :=
  ⟨fun v hv => h.finite v (mem_collect_subtree _ _ _ ht hv),
    fun x hx => h.names x (mem_collect_subtree _ _ _ ht hx),
    fun c hc => h.functions c (mem_collect_subtree _ _ _ ht hc)⟩

theorem nameable (h : Writable e) : Nameable e := ⟨h.names, h.functions⟩

end Writable

/-! ## What is read back -/

/-- A number that is not finite is read as a name, below a minus if it is negative. -/
def rereadNumber (v : Float) : Expr :=
  match Number.view v with
  | .notANumber => .name "nan"
  | .infinity .positive => .name "inf"
  | .infinity .negative => .binary .subtract (.number 0.0) (.name "inf")
  | .zero _ | .finite _ _ _ _ => .number v

mutual
def reread : Expr → Expr
  | number v => rereadNumber v
  | name x => name x
  | binary op l r => binary op (reread l) (reread r)
  | call f args => call f (rereadAll args)
  | foreign x => nomatch x

def rereadAll : List Expr → List Expr
  | [] => []
  | e :: es => reread e :: rereadAll es
end

theorem rereadAll_eq_map (es : List Expr) : rereadAll es = es.map reread := by
  induction es with
  | nil => rfl
  | cons e es ih => rw [rereadAll, ih, List.map_cons]

theorem rereadNumber_of_isFinite {v : Float} (hv : v.isFinite) : rereadNumber v = .number v := by
  change (Number.view v).isFinite = true at hv
  rw [rereadNumber]
  cases h : Number.view v with
  | notANumber | infinity s =>
    rw [h] at hv
    cases hv
  | zero s => rfl
  | finite s m e hm => rfl

theorem reread_of_finite {e : Expr} (h : ∀ v ∈ e.numbers, v.isFinite) : e.reread = e := by
  induction e using exprInduction with
  | number v => exact rereadNumber_of_isFinite (h v (List.mem_singleton.2 rfl))
  | name x => rfl
  | binary op l r ihl ihr =>
    rw [reread, ihl fun v hv => h v (List.mem_append_left _ hv),
      ihr fun v hv => h v (List.mem_append_right _ hv)]
  | call f args ih =>
    have hargs : args.map reread = args.map id := by
      apply List.map_congr_left
      intro a ha
      exact ih a ha fun v hv => h v ((mem_collect_call _ _ _).2 (.inl ⟨a, ha, hv⟩))
    rw [reread, rereadAll_eq_map, hargs, List.map_id]

/-! ## Texts of the parts -/

def Writes (text : String) (level : Nat) (e : Expr) : Prop :=
  Scans text.toList fun ts => Derives ts (.ofLevel level e)

theorem Writes.loosen {text : String} {m n : Nat} {e : Expr} (h : Writes text n e) (hm : 1 ≤ m)
    (hmn : m ≤ n) : Writes text m e :=
  Spells.loosen h hm hmn

theorem level_pos (e : Expr) : 1 ≤ e.level := by
  unfold level
  split
  · rename_i op _ _
    cases op <;> decide
  · decide

theorem writes_parenthesized {e : Expr} {text : String} {m n : Nat} (h : Writes text m e)
    (hm : 1 ≤ m) (hn : 1 ≤ n) (hn3 : n ≤ 3) {needed : Bool} (hneeded : needed = false → n ≤ m) :
    Writes (parenthesized needed text) n e := by
  cases needed with
  | false => exact h.loosen hn (hneeded rfl)
  | true =>
    rw [Writes, toList_parenthesized]
    exact Spells.loosen (n := 3) (Spells.expr h hm).group hn hn3

theorem writes_number {v : Float} (hv : v.isFinite) : Writes (Number.text v) 3 (.number v) := by
  have hnumeral := Number.numeral_magnitudeText hv
  have hread := Number.ofNumeral?_magnitudeText hv
  have htoken : ∀ t : Token, t.text = String.ofList (Number.magnitudeText Number.standard v) →
      Number.ofNumeral? t.text.toList = some v.abs := by
    intro t ht
    rw [ht, String.toList_ofList, hread]
  rw [Writes, Number.toList_text, Number.chars]
  split
  · rename_i hneg
    have hword : Scans (Number.magnitudeText Number.standard v) fun ts =>
        ∃ t : Token, t.kind = .number ∧ Number.ofNumeral? t.text.toList = some v.abs ∧ ts = [t] :=
      scans_word (.number hnumeral) fun t hk ht => ⟨t, hk, htoken t ht, rfl⟩
    refine hword.symbol (by decide) ?_
    rintro minus ts hminus ⟨t, hk, ht, rfl⟩
    have hderives := Derives.negative hminus hk ht
    rwa [Number.neg_abs_of_isNegative hneg] at hderives
  · rename_i hpos
    refine scans_word (.number hnumeral) fun t hk ht => .unary (.number hk ?_)
    rw [htoken t ht, Number.abs_of_not_isNegative (by simpa using hpos)]

theorem writes_name {x : String} (hx : IsIdentifier x) : Writes x 3 (.name x) := by
  refine (scans_name hx).imp ?_
  rintro ts ⟨t, hk, rfl, rfl⟩
  exact .unary (.name hk)

theorem isIdentifier_inf : IsIdentifier "inf" := by
  refine ⟨'i', ['n', 'f'], rfl, by decide, ?_⟩
  simp only [List.forall_mem_cons]
  exact ⟨by decide, by decide, nofun⟩

theorem isIdentifier_nan : IsIdentifier "nan" := by
  refine ⟨'n', ['a', 'n'], rfl, by decide, ?_⟩
  simp only [List.forall_mem_cons]
  exact ⟨by decide, by decide, nofun⟩

/-- Texts of numbers that are not finite are names, with a minus for the one that is negative. -/
theorem writes_rereadNumber (v : Float) : Writes (Number.text v) 3 (rereadNumber v) := by
  have hsign := Number.isNegative_iff v
  cases hv : Number.view v with
  | notANumber =>
    have hpositive : ¬ Number.isNegative v := by
      rw [hsign, hv]
      nofun
    rw [Writes, Number.toList_text, Number.chars, if_neg hpositive, Number.magnitudeText,
      rereadNumber, hv]
    exact writes_name isIdentifier_nan
  | infinity s =>
    cases s with
    | positive =>
      have hpositive : ¬ Number.isNegative v := by
        rw [hsign, hv]
        nofun
      rw [Writes, Number.toList_text, Number.chars, if_neg hpositive, Number.magnitudeText,
        rereadNumber, hv]
      exact writes_name isIdentifier_inf
    | negative =>
      have hnegative : Number.isNegative v := by
        rw [hsign, hv]
        rfl
      rw [Writes, Number.toList_text, Number.chars, if_pos hnegative, Number.magnitudeText,
        rereadNumber, hv]
      refine (scans_name isIdentifier_inf).symbol (by decide) ?_
      rintro minus ts hminus ⟨t, hk, ht, rfl⟩
      refine .negation hminus ?_ (.unary ?_)
      · rw [hk]
        decide
      · rw [← ht]
        exact .name hk
  | zero s | finite s m e hm =>
    have hfinite : v.isFinite := by
      change (Number.view v).isFinite = true
      rw [hv]
      rfl
    rw [rereadNumber_of_isFinite hfinite]
    exact writes_number hfinite

theorem writes_binary {op : Operator} {l r : Expr} {left right : String}
    (hl : Writes left op.level l) (hr : Writes right (op.level + 1) r) :
    Writes (left ++ " " ++ op.symbol ++ " " ++ right) op.level (.binary op l r) := by
  have htext : (left ++ " " ++ op.symbol ++ " " ++ right).toList
      = left.toList ++ ([' '] ++ op.character :: ([' '] ++ right.toList)) := by
    rw [op.symbol_eq]
    simp
  rw [Writes, htext]
  exact Spells.operation gap_blank hl hr

theorem writes_call {f : String} {args : List Expr} (hf : IsIdentifier f)
    (h : ∀ a ∈ args, Writes a.toSource a.level a.reread) :
    Writes (f ++ "(" ++ sourceList args ++ ")") 3 (.call f (args.map reread)) := by
  have htexts : List.Forall₂ (fun cs e => Spells cs (.expr e))
      (args.map fun a => a.toSource.toList) (args.map reread) := by
    refine List.forall₂_map_left_iff.2 (List.forall₂_map_right_iff.2 (List.forall₂_same.2 ?_))
    intro a ha
    exact Spells.expr (h a ha) (level_pos a)
  have htext : (f ++ "(" ++ sourceList args ++ ")").toList
      = f.toList ++ '(' :: ([',', ' '].intercalate (args.map fun a => a.toSource.toList)
        ++ [')']) := by
    simp [toList_sourceList]
  rw [Writes, htext]
  exact (spells_arguments gap_blank htexts).application hf

/-! ## The text of a tree -/

theorem writes_reread {e : Expr} (h : Nameable e) : Writes e.toSource e.level e.reread := by
  induction e using exprInduction with
  | number v => exact writes_rereadNumber v
  | name x => exact writes_name (h.names x (List.mem_singleton.2 rfl))
  | binary op l r ihl ihr =>
    have hop := op.level_pos
    have hop2 := op.level_le
    refine writes_binary ?_ ?_
    · refine writes_parenthesized (ihl h.left) (level_pos l) hop (by omega) fun hneeded => ?_
      exact Nat.le_of_not_lt (of_decide_eq_false hneeded)
    · refine writes_parenthesized (ihr h.right) (level_pos r) (by omega) (by omega)
        fun hneeded => ?_
      exact Nat.lt_of_not_le (of_decide_eq_false hneeded)
  | call f args ih =>
    rw [reread, rereadAll_eq_map]
    exact writes_call h.function fun a ha => ih a ha (h.argument ha)

theorem writes_toSource {e : Expr} (h : Writable e) : Writes e.toSource e.level e := by
  have hwrites := writes_reread ⟨h.names, h.functions⟩
  rwa [reread_of_finite h.finite] at hwrites

theorem parse_of_writes {text : String} {n : Nat} {e : Expr} (h : Writes text n e) (hn : 1 ≤ n) :
    parse text = .ok e :=
  (Spells.expr h hn).parse

/-- Every text of a tree is read, whatever the numbers of the tree are. -/
theorem parse_reread {e : Expr} (h : Nameable e) : parse e.toSource = .ok e.reread :=
  parse_of_writes (writes_reread h) (level_pos e)

/-- A tree is read back from its text, node for node. -/
theorem parse_toSource {e : Expr} (h : Writable e) : parse e.toSource = .ok e := by
  have hscans : Scans e.toSource.toList fun ts => Derives ts (.expr e) :=
    (writes_toSource h).imp fun _ hts => .expr (hts.loosen (m := 1) (by decide) (level_pos e))
  obtain ⟨ts, mark, hts, hmark, htext, htokens⟩ := hscans.tokenize
  rw [Grammar.parse_of_tokens htokens]
  obtain ⟨rest, hprogram⟩ := (Grammar.program_eq_done_iff
    (Grammar.kind_of_derives hts) hmark htext).2 hts
  rw [hprogram]
  rfl

theorem parse_toSource_minus_zero :
    parse "-0.0 - (x + f())" = .ok (.binary .subtract (.number (-0.0))
      (.binary .add (.name "x") (.call "f" []))) := by
  have hzero : (-0.0 : Float).isFinite := by decide
  have hx : IsIdentifier "x" := ⟨'x', [], rfl, by decide, by simp⟩
  have hf : IsIdentifier "f" := ⟨'f', [], rfl, by decide, by simp⟩
  have hwritable : Writable (.binary .subtract (.number (-0.0))
      (.binary .add (.name "x") (.call "f" []))) := by
    refine ⟨?_, ?_, ?_⟩
    · simpa [numbers, collect, collectAll] using hzero
    · simpa [names, collect, collectAll] using hx
    · simpa [calls, collect, collectAll] using hf
  have htext : toSource (.binary .subtract (.number (-0.0))
      (.binary .add (.name "x") (.call "f" []))) = "-0.0 - (x + f())" := by decide
  rw [← htext]
  exact parse_toSource hwritable

end Tree

end ArithCompiler

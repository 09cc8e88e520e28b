import ArithCompiler.Proofs.Grammar.Viability
import ArithCompiler.Proofs.Number.Kinds
import ArithCompiler.Proofs.Tree.RoundTrip

set_option autoImplicit false

/-!
# The trees that are read

What is read from a text has names that could be written in a source, and no number in it is one that
is not a number. Every such tree is read from some text: its operands stand in parentheses, and an
infinity is written as a numeral that is too large for a double.
-/

namespace ArithCompiler

open Grammar (Derives Phrase Words)

namespace Tree

namespace Nameable

theorem number (v : Float) : Nameable (.number v) := ⟨nofun, nofun⟩

theorem name {x : String} (hx : IsIdentifier x) : Nameable (.name x) := by
  refine ⟨fun y hy => ?_, nofun⟩
  obtain rfl := List.mem_singleton.1 hy
  exact hx

theorem binary {op : Operator} {l r : Expr} (hl : Nameable l) (hr : Nameable r) :
    Nameable (.binary op l r) := by
  constructor
  · intro x hx
    rcases List.mem_append.1 hx with hx | hx
    · exact hl.names x hx
    · exact hr.names x hx
  · intro c hc
    rcases List.mem_append.1 hc with hc | hc
    · exact hl.functions c hc
    · exact hr.functions c hc

theorem call {f : String} {args : List Expr} (hf : IsIdentifier f)
    (h : ∀ a ∈ args, Nameable a) : Nameable (.call f args) := by
  constructor
  · intro x hx
    rcases (mem_collect_call _ _ _).1 hx with ⟨a, ha, hx⟩ | hx
    · exact (h a ha).names x hx
    · cases hx
  · intro c hc
    rcases (mem_collect_call _ _ _).1 hc with ⟨a, ha, hc⟩ | hc
    · exact (h a ha).functions c hc
    · obtain rfl := List.mem_singleton.1 hc
      exact hf

end Nameable

structure Legible (e : Expr) : Prop extends Nameable e where
  numbers : ∀ v ∈ e.numbers, ¬ v.isNaN

namespace Legible

variable {op : Operator} {l r : Expr} {f : String} {args : List Expr}

theorem number {v : Float} (hv : ¬ v.isNaN) : Legible (.number v) :=
  ⟨.number v, List.forall_mem_singleton.2 hv⟩

theorem name {x : String} (hx : IsIdentifier x) : Legible (.name x) := ⟨.name hx, nofun⟩

theorem binary (hl : Legible l) (hr : Legible r) : Legible (.binary op l r) :=
  ⟨.binary hl.toNameable hr.toNameable, List.forall_mem_append.2 ⟨hl.numbers, hr.numbers⟩⟩

theorem call (hf : IsIdentifier f) (h : ∀ a ∈ args, Legible a) : Legible (.call f args) := by
  refine ⟨.call hf fun a ha => (h a ha).toNameable, fun v hv => ?_⟩
  rcases (mem_collect_call _ _ _).1 hv with ⟨a, ha, hv⟩ | hv
  · exact (h a ha).numbers v hv
  · cases hv

theorem left (h : Legible (.binary op l r)) : Legible l :=
  ⟨h.toNameable.left, fun v hv => h.numbers v (List.mem_append_left _ hv)⟩

theorem right (h : Legible (.binary op l r)) : Legible r :=
  ⟨h.toNameable.right, fun v hv => h.numbers v (List.mem_append_right _ hv)⟩

theorem argument (h : Legible (.call f args)) {a : Expr} (ha : a ∈ args) : Legible a :=
  ⟨h.toNameable.argument ha,
    fun v hv => h.numbers v ((mem_collect_call _ _ _).2 (.inl ⟨a, ha, hv⟩))⟩

end Legible

end Tree

namespace Grammar

/-! ## What is derived is legible -/

theorem isIdentifier_of_word {t : Token} (h : Lexer.Word t.kind t.text.toList)
    (hk : t.kind = .name) : IsIdentifier t.text := by
  rw [hk] at h
  generalize htext : t.text.toList = v at h
  cases h with
  | name hc hcs => exact ⟨_, _, htext, hc, hcs⟩

def Phrase.trees : Phrase → List Expr
  | expr e | sum e | product e | unary e | primary e => [e]
  | argList es | exprs es => es

theorem legible_of_derives {ts : List Token} {p : Phrase} (h : Derives ts p) (hts : Words ts) :
    ∀ e ∈ p.trees, e.Legible := by
  induction h with
  | expr _ ih | sum _ ih | product _ ih | unary _ ih | arguments _ ih => exact ih hts
  | addition _ _ _ _ ihl ihr | multiplication _ _ _ _ ihl ihr =>
    obtain ⟨hl, hr⟩ := hts.of_append
    refine List.forall_mem_singleton.2 (.binary ?_ ?_)
    · exact ihl hl _ (List.mem_singleton.2 rfl)
    · exact ihr hr.tail _ (List.mem_singleton.2 rfl)
  | negative _ _ hv =>
    have hnumber := Number.not_isNaN_of_ofNumeral? hv
    exact List.forall_mem_singleton.2 (.number (mt Number.isNaN_neg.1 hnumber))
  | number _ hv =>
    exact List.forall_mem_singleton.2 (.number (Number.not_isNaN_of_ofNumeral? hv))
  | negation _ _ _ ih =>
    have he := ih hts.tail _ (List.mem_singleton.2 rfl)
    exact List.forall_mem_singleton.2 (.binary (.number (by decide)) he)
  | name hk =>
    exact List.forall_mem_singleton.2
      (.name (isIdentifier_of_word (hts _ List.mem_cons_self) hk))
  | call hk _ _ _ ih =>
    have hf := isIdentifier_of_word (hts _ List.mem_cons_self) hk
    exact List.forall_mem_singleton.2 (.call hf (ih hts.tail.tail.of_append.1))
  | group _ _ _ ih => exact ih hts.tail.of_append.1
  | noArguments => exact nofun
  | lastExpr _ ih => exact ih hts
  | moreExprs _ _ _ ih ihs =>
    obtain ⟨hfirst, hmore⟩ := hts.of_append
    refine List.forall_mem_cons.2 ⟨?_, ihs hmore.tail⟩
    exact ih hfirst _ (List.mem_singleton.2 rfl)

theorem legible_of_parse {source : String} {e : Expr} (h : parse source = .ok e) : e.Legible := by
  obtain ⟨ts, mark, -, hwords, hderives⟩ := derives_of_parse h
  exact legible_of_derives hderives hwords e (List.mem_singleton.2 rfl)

theorem nameable_of_parse {source : String} {e : Expr} (h : parse source = .ok e) : e.Nameable :=
  (legible_of_parse h).toNameable

end Grammar

namespace Tree

/-! ## A text of every legible tree -/

/-- An infinity is spelled as a numeral that overflows. -/
def spelledNumber (v : Float) : String :=
  match Number.view v with
  | .infinity .positive => "1e999"
  | .infinity .negative => "-1e999"
  | _ => Number.text v

mutual
def spelled : Expr → String
  | number v => spelledNumber v
  | name x => x
  | binary op l r => "(" ++ l.spelled ++ ")" ++ op.symbol ++ "(" ++ r.spelled ++ ")"
  | call f args => f ++ "(" ++ ",".intercalate (spelledAll args) ++ ")"
  | foreign x => nomatch x

def spelledAll : List Expr → List String
  | [] => []
  | e :: es => e.spelled :: spelledAll es
end

theorem spelledAll_eq_map (es : List Expr) : spelledAll es = es.map spelled := by
  induction es with
  | nil => rfl
  | cons e es ih => rw [spelledAll, ih, List.map_cons]

theorem ofNumeral?_overflow :
    Number.ofNumeral? "1e999".toList = some Number.positiveInfinity := by
  decide +kernel

theorem parse_overflow : parse "1e999" = .ok (.number Number.positiveInfinity) := by
  have htokens : tokenize "1e999" = .ok ([⟨.number, "1e999", 1, 1⟩] ++
      [⟨.endOfInput, "", 1, 6⟩]) := by cbv
  have hunary : Derives [⟨.number, "1e999", 1, 1⟩] (.unary (.number Number.positiveInfinity)) :=
    .unary (.number rfl ofNumeral?_overflow)
  exact Grammar.parse_of_derives htokens rfl rfl (.expr (.sum (.product hunary)))

theorem parse_negative_overflow : parse "-1e999" = .ok (.number Number.negativeInfinity) := by
  have htokens : tokenize "-1e999" = .ok ([⟨.symbol, "-", 1, 1⟩, ⟨.number, "1e999", 1, 2⟩] ++
      [⟨.endOfInput, "", 1, 7⟩]) := by cbv
  have hunary : Derives [⟨.symbol, "-", 1, 1⟩, ⟨.number, "1e999", 1, 2⟩]
      (.unary (.number (-Number.positiveInfinity))) :=
    .negative (by decide) rfl ofNumeral?_overflow
  exact Grammar.parse_of_derives htokens rfl rfl (.expr (.sum (.product hunary)))

theorem parse_spelledNumber {v : Float} (hv : ¬ v.isNaN) :
    parse (spelledNumber v) = .ok (.number v) := by
  rw [Number.isNaN_iff] at hv
  rw [spelledNumber]
  cases h : Number.view v with
  | notANumber => exact absurd h hv
  | infinity s =>
    cases s with
    | positive =>
      obtain rfl : v = Number.positiveInfinity := Number.view_inj h
      exact parse_overflow
    | negative =>
      obtain rfl : v = Number.negativeInfinity := Number.view_inj h
      exact parse_negative_overflow
  | zero s | finite s m e hm =>
    have hfinite : v.isFinite := by
      change (Number.view v).isFinite = true
      rw [h]
      rfl
    exact parse_of_writes (writes_number hfinite) (by decide)

theorem parse_spelled {e : Expr} (h : e.Legible) : parse e.spelled = .ok e := by
  induction e using exprInduction with
  | number v => exact parse_spelledNumber (h.numbers v (List.mem_singleton.2 rfl))
  | name x => exact parse_of_writes (writes_name (h.names x (List.mem_singleton.2 rfl))) (by decide)
  | binary op l r ihl ihr => exact Grammar.parse_operation (ihl h.left) (ihr h.right) op
  | call f args ih =>
    rw [spelled, spelledAll_eq_map]
    apply Grammar.parse_application h.function
    exact List.forall₂_map_left_iff.2 (List.forall₂_same.2 fun a ha => ih a ha (h.argument ha))

/-- The trees that are read from texts are those whose names could be written in a source and whose
    numbers are not what is not a number. -/
theorem exists_parse_iff (e : Expr) :
    (∃ source, parse source = .ok e) ↔
      (∀ x ∈ e.names, IsIdentifier x) ∧ (∀ c ∈ e.calls, IsIdentifier c.1) ∧
        ∀ v ∈ e.numbers, ¬ v.isNaN := by
  constructor
  · rintro ⟨source, h⟩
    have hlegible := Grammar.legible_of_parse h
    exact ⟨hlegible.names, hlegible.functions, hlegible.numbers⟩
  · rintro ⟨hnames, hfunctions, hnumbers⟩
    exact ⟨e.spelled, parse_spelled ⟨⟨hnames, hfunctions⟩, hnumbers⟩⟩

end Tree

end ArithCompiler

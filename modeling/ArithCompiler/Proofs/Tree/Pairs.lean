import ArithCompiler.Proofs.Text.Nesting
import ArithCompiler.Proofs.Tree.RoundTrip

set_option autoImplicit false

/-!
# The pairs of parentheses in a text

The texts of trees are balanced. The pairs that are found in a text are those of calls, which follow
a name, and those that the text was given around operands.
-/

namespace ArithCompiler.Tree

open Lexer (isNameChar)
open Text (Balanced Pair Plain)

/-! ## Texts are balanced -/

theorem plain_of_isNameChar {cs : List Char} (h : ∀ c ∈ cs, isNameChar c) : Plain cs := by
  intro c hc
  constructor
  all_goals
    rintro rfl
    exact absurd (h _ hc) (by decide)

theorem plain_identifier {x : String} (hx : IsIdentifier x) : Plain x.toList := by
  obtain ⟨c, cs, heq, hc, hcs⟩ := hx
  rw [heq]
  exact plain_of_isNameChar (Lexer.forall_isNameChar hc hcs)

theorem plain_number {v : Float} (hv : v.isFinite) : Plain (Number.text v).toList := by
  have hmagnitude : Plain (Number.magnitudeText Number.standard v) := by
    intro c hc
    rcases (Number.numeral_magnitudeText hv).character c hc with hname | hother
    · exact plain_of_isNameChar (List.forall_mem_singleton.2 hname) c (List.mem_singleton.2 rfl)
    · simp only [List.mem_cons, List.not_mem_nil, or_false] at hother
      rcases hother with rfl | rfl | rfl <;> decide
  rw [Number.toList_text, Number.chars]
  split
  · exact List.forall_mem_cons.2 ⟨by decide, hmagnitude⟩
  · exact hmagnitude

theorem plain_between (op : Operator) : Plain [' ', op.character, ' '] := by
  refine List.forall_mem_cons.2 ⟨by decide, List.forall_mem_cons.2 ⟨op.character_ne, ?_⟩⟩
  exact List.forall_mem_singleton.2 (by decide)

theorem plain_comma : Plain [',', ' '] := by simp [Plain]

theorem balanced_operand {e : Expr} (h : Balanced e.toSource.toList) (needed : Bool) :
    Balanced (operandChars needed e) := by
  cases needed with
  | false => simpa [operandChars, opening, closing] using h
  | true => exact h.enclosed

theorem balanced_trailing {back : List Expr} (h : ∀ a ∈ back, Balanced a.toSource.toList) :
    Balanced (trailing back) := by
  induction back with
  | nil => exact .nil
  | cons a back ih =>
    rw [trailing, List.flatMap_cons]
    exact (plain_comma.balanced.append (h a List.mem_cons_self)).append
      (ih fun b hb => h b (List.mem_cons_of_mem _ hb))

theorem balanced_sourceList {args : List Expr} (h : ∀ a ∈ args, Balanced a.toSource.toList) :
    Balanced (sourceList args).toList := by
  cases args with
  | nil => exact .nil
  | cons a back =>
    rw [toList_sourceList_cons]
    exact (h a List.mem_cons_self).append
      (balanced_trailing fun b hb => h b (List.mem_cons_of_mem _ hb))

theorem balanced_toSource {e : Expr} (h : Writable e) : Balanced e.toSource.toList := by
  induction e using exprInduction with
  | number v => exact (plain_number (h.finite v (List.mem_singleton.2 rfl))).balanced
  | name x => exact (plain_identifier (h.names x (List.mem_singleton.2 rfl))).balanced
  | binary op l r ihl ihr =>
    have hl := balanced_operand (ihl (h.subtree (.left op (.refl l)))) (l.level < op.level)
    have hr := balanced_operand (ihr (h.subtree (.right op (.refl r)))) (r.level ≤ op.level)
    rw [toList_binary]
    exact hl.append ((plain_between op).balanced.append hr)
  | call f args ih =>
    have hlist := balanced_sourceList fun a ha => ih a ha (h.subtree (.argument f ha (.refl a)))
    rw [toList_call]
    exact (plain_identifier h.nameable.function).balanced.append hlist.enclosed

/-! ## Operands in parentheses -/

/-- The second tree stands in parentheses as an operand in the text of the first, between the two
    texts. -/
inductive Encloses : Expr → List Char → Expr → List Char → Prop
  | left {op : Operator} {l : Expr} (r : Expr) : l.level < op.level →
      Encloses (.binary op l r) [] l
        (' ' :: op.character :: ' ' :: operandChars (r.level ≤ op.level) r)
  | right {op : Operator} {r : Expr} (l : Expr) : r.level ≤ op.level →
      Encloses (.binary op l r) (operandChars (l.level < op.level) l ++ [' ', op.character, ' ']) r
        []
  | insideLeft {l x : Expr} {before after : List Char} (op : Operator) (r : Expr) :
      Encloses l before x after →
      Encloses (.binary op l r) (opening (l.level < op.level) ++ before) x
        (after ++ closing (l.level < op.level)
          ++ ' ' :: op.character :: ' ' :: operandChars (r.level ≤ op.level) r)
  | insideRight {r x : Expr} {before after : List Char} (op : Operator) (l : Expr) :
      Encloses r before x after →
      Encloses (.binary op l r) (operandChars (l.level < op.level) l
          ++ ([' ', op.character, ' '] ++ (opening (r.level ≤ op.level) ++ before))) x
        (after ++ closing (r.level ≤ op.level))
  | argument {a x : Expr} {before after : List Char} (f : String) (front back : List Expr) :
      Encloses a before x after →
      Encloses (.call f (front ++ a :: back)) (f.toList ++ '(' :: (leading front ++ before)) x
        (after ++ trailing back ++ [')'])

section Pairs

variable {before inner after : List Char}

theorem pair_operand {e : Expr} (h : Balanced e.toSource.toList) {needed : Bool}
    (hpair : Pair (operandChars needed e) before inner after) :
    (needed ∧ before = [] ∧ inner = e.toSource.toList ∧ after = []) ∨
      ∃ earlier later, Pair e.toSource.toList earlier inner later ∧
        before = opening needed ++ earlier ∧ after = later ++ closing needed := by
  cases needed with
  | false =>
    right
    have htext : operandChars false e = e.toSource.toList := by
      simp [operandChars, opening, closing]
    rw [htext] at hpair
    exact ⟨before, after, hpair, rfl, (List.append_nil after).symm⟩
  | true =>
    rcases hpair.enclosed_cases h with hwhole | hwithin
    · exact .inl ⟨rfl, hwhole⟩
    · exact .inr hwithin

theorem pair_arguments {args : List Expr} (h : ∀ a ∈ args, Balanced a.toSource.toList)
    (hpair : Pair (sourceList args).toList before inner after) :
    ∃ front a back earlier later, args = front ++ a :: back ∧
      Pair a.toSource.toList earlier inner later ∧ before = leading front ++ earlier ∧
        after = later ++ trailing back := by
  induction args generalizing before with
  | nil => exact absurd nofun hpair.not_plain
  | cons a args ih =>
    rw [toList_sourceList_cons] at hpair
    rcases hpair.append_cases (h a List.mem_cons_self) with
      ⟨later, hfirst, rfl⟩ | ⟨earlier, hmore, rfl⟩
    · exact ⟨[], a, args, before, later, rfl, hfirst, rfl, rfl⟩
    · cases args with
      | nil => exact absurd nofun hmore.not_plain
      | cons b args =>
        have htext : trailing (b :: args) = [',', ' '] ++ (sourceList (b :: args)).toList := by
          rw [toList_sourceList_cons, trailing, List.flatMap_cons]
          rfl
        rw [htext] at hmore
        obtain ⟨_, hlist, rfl⟩ := hmore.plain_append plain_comma
        obtain ⟨front, c, back, earlier, later, heq, hc, rfl, rfl⟩ :=
          ih (fun c hc => h c (List.mem_cons_of_mem _ hc)) hlist
        refine ⟨a :: front, c, back, earlier, later, by rw [heq]; rfl, hc, ?_, rfl⟩
        simp [leading]

def OfCall (e : Expr) (before inner : List Char) : Prop :=
  ∃ f args, Subtree (.call f args) e ∧ f.toList <:+ before ∧ inner = (sourceList args).toList

theorem OfCall.mono {t e : Expr} (h : OfCall t before inner) (ht : Subtree t e)
    (front : List Char) : OfCall e (front ++ before) inner := by
  obtain ⟨f, args, hcall, hname, hinner⟩ := h
  exact ⟨f, args, hcall.trans ht, hname.trans (List.suffix_append _ _), hinner⟩

/-- A pair in the text of a tree is the pair of a call, or it stands around an operand. -/
theorem pair_toSource {e : Expr} (he : Writable e)
    (hpair : Pair e.toSource.toList before inner after) :
    OfCall e before inner ∨ ∃ x : Expr, inner = x.toSource.toList ∧ Encloses e before x after := by
  induction e using exprInduction generalizing before after with
  | number v =>
    exact absurd (plain_number (he.finite v (List.mem_singleton.2 rfl))) hpair.not_plain
  | name x =>
    exact absurd (plain_identifier (he.names x (List.mem_singleton.2 rfl))) hpair.not_plain
  | binary op l r ihl ihr =>
    have hl : Subtree l (.binary op l r) := .left op (.refl l)
    have hr : Subtree r (.binary op l r) := .right op (.refl r)
    rw [toList_binary] at hpair
    rcases hpair.append_cases (balanced_operand (balanced_toSource (he.subtree hl)) _) with
      ⟨_, hleft, rfl⟩ | ⟨_, hrest, rfl⟩
    · rcases pair_operand (balanced_toSource (he.subtree hl)) hleft with
        ⟨hneeded, rfl, rfl, rfl⟩ | ⟨earlier, later, hwithin, rfl, rfl⟩
      · exact .inr ⟨l, rfl, .left r (of_decide_eq_true hneeded)⟩
      · rcases ihl (he.subtree hl) hwithin with hcall | ⟨x, rfl, hx⟩
        · exact .inl (hcall.mono hl _)
        · exact .inr ⟨x, rfl, .insideLeft op r hx⟩
    · obtain ⟨_, hright, rfl⟩ := Pair.plain_append (plain_between op) hrest
      rcases pair_operand (balanced_toSource (he.subtree hr)) hright with
        ⟨hneeded, rfl, rfl, rfl⟩ | ⟨earlier, later, hwithin, rfl, rfl⟩
      · exact .inr ⟨r, rfl, .right l (of_decide_eq_true hneeded)⟩
      · rcases ihr (he.subtree hr) hwithin with hcall | ⟨x, rfl, hx⟩
        · rw [← List.append_assoc, ← List.append_assoc]
          exact .inl (hcall.mono hr _)
        · exact .inr ⟨x, rfl, .insideRight op l hx⟩
  | call f args ih =>
    have hargs : ∀ a ∈ args, Subtree a (.call f args) := fun a ha => .argument f ha (.refl a)
    have hbalanced : ∀ a ∈ args, Balanced a.toSource.toList :=
      fun a ha => balanced_toSource (he.subtree (hargs a ha))
    rw [toList_call] at hpair
    obtain ⟨_, hopened, rfl⟩ := hpair.plain_append (plain_identifier he.nameable.function)
    rcases hopened.enclosed_cases (balanced_sourceList hbalanced) with
      ⟨rfl, rfl, rfl⟩ | ⟨_, _, hlist, rfl, rfl⟩
    · exact .inl ⟨f, args, .refl _, by rw [List.append_nil], rfl⟩
    · obtain ⟨front, a, back, earlier, later, rfl, ha, rfl, rfl⟩ := pair_arguments hbalanced hlist
      have hmem : a ∈ front ++ a :: back := List.mem_append_right front List.mem_cons_self
      rcases ih a hmem (he.subtree (hargs a hmem)) ha with hcall | ⟨x, rfl, hx⟩
      · rw [← List.cons_append, ← List.append_assoc]
        exact .inl (hcall.mono (hargs a hmem) _)
      · exact .inr ⟨x, rfl, .argument f front back hx⟩

theorem OfCall.follows_name {e : Expr} (he : Writable e) (h : OfCall e before inner) :
    ∃ c ∈ before.getLast?, isNameChar c := by
  obtain ⟨f, args, hcall, ⟨front, rfl⟩, -⟩ := h
  obtain ⟨c, cs, heq, hc, hcs⟩ := (he.subtree hcall).nameable.function
  have hne : c :: cs ≠ [] := List.cons_ne_nil c cs
  rw [heq, List.getLast?_append_of_ne_nil front hne, List.getLast?_eq_some_getLast hne]
  exact ⟨_, rfl, Lexer.forall_isNameChar hc hcs _ (List.getLast_mem hne)⟩

end Pairs

/-! ## Beside an operator -/

/-- The second tree is an operand in the first. Its operator stands behind or before it, next to the
    two texts, and asks for parentheses. -/
def OperandAt (e : Expr) (before : List Char) (x : Expr) (after : List Char) : Prop :=
  ∃ op l r, Subtree (.binary op l r) e ∧
    (x = l ∧ l.level < op.level ∧ (" " ++ op.symbol ++ " ").toList <+: after ∨
      x = r ∧ r.level ≤ op.level ∧ (" " ++ op.symbol ++ " ").toList <:+ before)

theorem OperandAt.mono {t e x : Expr} {before after : List Char} (h : OperandAt t before x after)
    (ht : Subtree t e) (front back : List Char) :
    OperandAt e (front ++ before) x (after ++ back) := by
  obtain ⟨op, l, r, hsubtree, hplace⟩ := h
  refine ⟨op, l, r, hsubtree.trans ht, hplace.imp ?_ ?_⟩
  · rintro ⟨hx, hlevel, hafter⟩
    exact ⟨hx, hlevel, hafter.trans (List.prefix_append _ _)⟩
  · rintro ⟨hx, hlevel, hbefore⟩
    exact ⟨hx, hlevel, hbefore.trans (List.suffix_append _ _)⟩

/-- Numbers, names and calls are tight enough everywhere. -/
theorem OperandAt.exists_binary {e x : Expr} {before after : List Char}
    (h : OperandAt e before x after) : ∃ op l r, x = .binary op l r := by
  have hlevel : x.level ≤ 2 := by
    obtain ⟨op, l, r, -, ⟨rfl, hlevel, -⟩ | ⟨rfl, hlevel, -⟩⟩ := h
    · exact hlevel.le.trans op.level_le
    · exact hlevel.trans op.level_le
  cases x with
  | binary op l r => exact ⟨op, l, r, rfl⟩
  | number | name | call => exact absurd hlevel (Nat.not_succ_le_self 2)
  | foreign y => exact y.elim

theorem toList_between (op : Operator) :
    (" " ++ op.symbol ++ " ").toList = [' ', op.character, ' '] := by
  rw [op.symbol_eq]
  simp

theorem Encloses.operandAt {e x : Expr} {before after : List Char} (h : Encloses e before x after) :
    OperandAt e before x after := by
  induction h with
  | @left op l r hneeded =>
    refine ⟨op, l, r, .refl _, .inl ⟨rfl, hneeded, ?_⟩⟩
    rw [toList_between]
    exact List.prefix_append _ _
  | @right op r l hneeded =>
    refine ⟨op, l, r, .refl _, .inr ⟨rfl, hneeded, ?_⟩⟩
    rw [toList_between]
    exact List.suffix_append _ _
  | @insideLeft l x before after op r _ ih =>
    rw [List.append_assoc]
    exact ih.mono (.left op (.refl l)) _ _
  | @insideRight r x before after op l _ ih =>
    rw [← List.append_assoc, ← List.append_assoc]
    exact ih.mono (.right op (.refl r)) _ _
  | @argument a x before after f front back _ ih =>
    have hmem : a ∈ front ++ a :: back := List.mem_append_right front List.mem_cons_self
    rw [← List.cons_append, ← List.append_assoc, List.append_assoc after]
    exact ih.mono (.argument f hmem (.refl a)) _ _

end ArithCompiler.Tree

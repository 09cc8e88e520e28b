import ArithCompiler.Proofs.Grammar.Cost
import ArithCompiler.Proofs.Tree.Pairs

set_option autoImplicit false

/-!
# The parentheses of a text are needed

The tokens of the text of a tree weigh what the tree costs. Without a pair of parentheses around an
operand they weigh less, so whatever is read then costs less and is another tree.
-/

namespace ArithCompiler.Tree

open Grammar (scans_name weight)
open Lexer (Scans scans_nil scans_word delimited_cons delimited_nil Delimited isNameChar)
open Text (Pair)

/-! ## What texts weigh -/

def Weighs (cs : List Char) (n : ℤ) : Prop := Scans cs fun ts => weight ts = n

namespace Weighs

variable {cs ds : List Char} {m n : ℤ}

theorem of_eq (h : Weighs cs m) (hcs : cs = ds) (hmn : m = n) : Weighs ds n := by
  rw [← hcs, ← hmn]
  exact h

theorem nil : Weighs [] 0 := scans_nil Grammar.weight_nil

theorem append (hcs : Weighs cs m) (hds : Weighs ds n) (hd : Delimited ds) :
    Weighs (cs ++ ds) (m + n) := by
  refine Scans.append hcs hds hd ?_
  rintro us vs rfl rfl
  exact Grammar.weight_append us vs

theorem blank (h : Weighs cs n) : Weighs (' ' :: cs) n := Scans.blank h

theorem symbol {c : Char} (hc : c ∈ Lexer.symbols) (hne : c ≠ '(') (h : Weighs cs n) :
    Weighs (c :: cs) n := by
  refine Scans.symbol hc h fun t us ht hus => ?_
  have hsymbol : String.ofList [c] ≠ "(" := by
    intro heq
    exact hne (List.singleton_inj.1 (String.ofList_injective heq))
  rw [Grammar.weight_cons, Token.weight_symbol ht hsymbol, zero_add, hus]

theorem enclosed (h : Weighs cs n) : Weighs ('(' :: (cs ++ [')'])) (1 + n) := by
  refine (Grammar.scans_enclosed h).imp ?_
  rintro ts ⟨o, us, c, ho, rfl, hc, rfl⟩
  exact Grammar.weight_enclosed ho hc us

theorem operand (h : Weighs cs n) (needed : Bool) :
    Weighs (opening needed ++ (cs ++ closing needed)) (n + if needed then 1 else 0) := by
  cases needed with
  | false =>
    rw [if_neg Bool.false_ne_true, add_zero]
    simpa [opening, closing] using h
  | true =>
    rw [if_pos rfl, add_comm]
    exact h.enclosed

theorem operation (hcs : Weighs cs m) (hds : Weighs ds n) (op : Operator) :
    Weighs (cs ++ ' ' :: op.character :: ' ' :: ds) (m + n) := by
  have hrest : Weighs (' ' :: op.character :: ' ' :: ds) n :=
    (hds.blank.symbol op.character_mem op.character_ne.1).blank
  exact hcs.append hrest (delimited_cons (by decide) _)

theorem call {f : String} (hf : IsIdentifier f) (h : Weighs cs n) :
    Weighs (f.toList ++ '(' :: (cs ++ [')'])) (1 + n) := by
  have hname : Weighs f.toList 0 := by
    refine (scans_name hf).imp ?_
    rintro ts ⟨t, hk, -, rfl⟩
    rw [Grammar.weight_singleton, Token.weight_name hk]
  have hcall := hname.append h.enclosed (delimited_cons (by decide) _)
  rwa [zero_add] at hcall

theorem comma (h : Weighs cs n) : Weighs (',' :: ' ' :: cs) n :=
  h.blank.symbol (by decide) (by decide)

theorem trailing {back : List Expr} (h : ∀ a ∈ back, Weighs a.toSource.toList a.cost) :
    Weighs (trailing back) (costAll back) ∧ Delimited (Tree.trailing back) := by
  induction back with
  | nil => exact ⟨nil, delimited_nil⟩
  | cons a back ih =>
    obtain ⟨hmore, hdelimited⟩ := ih fun b hb => h b (List.mem_cons_of_mem _ hb)
    have hfirst := (h a List.mem_cons_self).append hmore hdelimited
    rw [Tree.trailing, List.flatMap_cons]
    exact ⟨hfirst.comma, delimited_cons (by decide) _⟩

theorem leading {front : List Expr} (h : ∀ a ∈ front, Weighs a.toSource.toList a.cost)
    (hcs : Weighs cs n) : Weighs (leading front ++ cs) (costAll front + n) := by
  induction front with
  | nil => simpa [Tree.leading, costAll] using hcs
  | cons a front ih =>
    have hmore := (ih fun b hb => h b (List.mem_cons_of_mem _ hb)).comma
    have hfirst := (h a List.mem_cons_self).append hmore (delimited_cons (by decide) _)
    rw [← add_assoc] at hfirst
    simpa [Tree.leading, costAll] using hfirst

theorem arguments {front back : List Expr} (hcs : Weighs cs n)
    (hfront : ∀ a ∈ front, Weighs a.toSource.toList a.cost)
    (hback : ∀ a ∈ back, Weighs a.toSource.toList a.cost) :
    Weighs (Tree.leading front ++ (cs ++ Tree.trailing back))
      (costAll front + (n + costAll back)) := by
  obtain ⟨hlater, hdelimited⟩ := trailing hback
  exact leading hfront (hcs.append hlater hdelimited)

end Weighs

theorem weighs_number {v : Float} (hv : v.isFinite) : Weighs (Number.text v).toList (-1) := by
  have hword : Weighs (Number.magnitudeText Number.standard v) (-1) := by
    refine scans_word (.number (Number.numeral_magnitudeText hv)) fun t hk _ => ?_
    rw [Grammar.weight_singleton, Token.weight_number hk]
  rw [Number.toList_text, Number.chars]
  split
  · exact hword.symbol (by decide) (by decide)
  · exact hword

theorem weighs_toSource {e : Expr} (h : Writable e) : Weighs e.toSource.toList e.cost := by
  induction e using exprInduction with
  | number v => exact weighs_number (h.finite v (List.mem_singleton.2 rfl))
  | name x =>
    refine (scans_name (h.names x (List.mem_singleton.2 rfl))).imp ?_
    rintro ts ⟨t, hk, -, rfl⟩
    rw [Grammar.weight_singleton, Token.weight_name hk]
    rfl
  | binary op l r ihl ihr =>
    have hl := (ihl (h.subtree (.left op (.refl l)))).operand (l.level < op.level)
    have hr := (ihr (h.subtree (.right op (.refl r)))).operand (r.level ≤ op.level)
    refine (hl.operation hr op).of_eq (toList_binary op l r).symm ?_
    simp only [cost, decide_eq_true_eq]
  | call f args ih =>
    have hargs : ∀ a ∈ args, Weighs a.toSource.toList a.cost :=
      fun a ha => ih a ha (h.subtree (.argument f ha (.refl a)))
    have hlist : Weighs (sourceList args).toList (costAll args) := by
      cases args with
      | nil => exact Weighs.nil
      | cons a back =>
        obtain ⟨hback, hdelimited⟩ :=
          Weighs.trailing fun b hb => hargs b (List.mem_cons_of_mem _ hb)
        rw [toList_sourceList_cons]
        exact (hargs a List.mem_cons_self).append hback hdelimited
    rw [toList_call, cost]
    exact hlist.call h.nameable.function

/-! ## No pair can be spared -/

/-- Without the pair of parentheses the text weighs one less. -/
theorem Encloses.weighs {e x : Expr} {before after : List Char} (h : Encloses e before x after)
    (he : Writable e) : Weighs (before ++ (x.toSource.toList ++ after)) (e.cost - 1) := by
  induction h with
  | @left op l r hneeded =>
    have hl := weighs_toSource (he.subtree (.left op (.refl l)))
    have hr := (weighs_toSource (he.subtree (.right op (.refl r)))).operand (r.level ≤ op.level)
    refine (hl.operation hr op).of_eq rfl ?_
    simp only [cost, if_pos hneeded, decide_eq_true_eq]
    omega
  | @right op r l hneeded =>
    have hl := (weighs_toSource (he.subtree (.left op (.refl l)))).operand (l.level < op.level)
    have hr := weighs_toSource (he.subtree (.right op (.refl r)))
    refine (hl.operation hr op).of_eq (by simp [operandChars]) ?_
    simp only [cost, if_pos hneeded, decide_eq_true_eq]
    omega
  | @insideLeft l x before after op r _ ih =>
    have hl := (ih (he.subtree (.left op (.refl l)))).operand (l.level < op.level)
    have hr := (weighs_toSource (he.subtree (.right op (.refl r)))).operand (r.level ≤ op.level)
    refine (hl.operation hr op).of_eq (by simp [operandChars]) ?_
    simp only [cost, decide_eq_true_eq]
    omega
  | @insideRight r x before after op l _ ih =>
    have hl := (weighs_toSource (he.subtree (.left op (.refl l)))).operand (l.level < op.level)
    have hr := (ih (he.subtree (.right op (.refl r)))).operand (r.level ≤ op.level)
    refine (hl.operation hr op).of_eq (by simp [operandChars]) ?_
    simp only [cost, decide_eq_true_eq]
    omega
  | @argument a x before after f front back _ ih =>
    have hwritable : ∀ b ∈ front ++ a :: back, Writable b :=
      fun b hb => he.subtree (.argument f hb (.refl b))
    obtain ⟨hfront, hrest⟩ := List.forall_mem_append.1 hwritable
    obtain ⟨ha, hback⟩ := List.forall_mem_cons.1 hrest
    have hargs := (ih ha).arguments (fun b hb => weighs_toSource (hfront b hb))
      fun b hb => weighs_toSource (hback b hb)
    refine (hargs.call he.nameable.function).of_eq (by simp) ?_
    rw [cost, costAll_append, costAll]
    omega

theorem Weighs.cost_le {cs : List Char} {n : ℤ} {e : Expr} (h : Weighs cs n)
    (hparse : parse (String.ofList cs) = .ok e) : e.cost ≤ n := by
  have hscans : Scans (String.ofList cs).toList fun ts => weight ts = n := by
    rw [String.toList_ofList]
    exact h
  obtain ⟨ts, mark, rfl, -, -, htokens⟩ := hscans.tokenize
  obtain ⟨us, mark', htokens', -, hderives⟩ := Grammar.derives_of_parse hparse
  rw [htokens] at htokens'
  obtain ⟨rfl, -⟩ := List.append_inj' (Except.ok.inj htokens') rfl
  exact (cost_le_costAt 1 e).trans (Grammar.cost_le_weight hderives)

/-- Every pair of parentheses in the text of a tree that follows no name, so that it is no call's, is
    needed. Without it the text is not read as the tree, and it stands around an operation that is an
    operand itself. -/
theorem parentheses_needed {e : Expr} (he : Writable e) {before inner after : List Char}
    (hpair : Pair e.toSource.toList before inner after)
    (hcall : ∀ c ∈ before.getLast?, isNameChar c = false) :
    (∀ e', parse (String.ofList (before ++ (inner ++ after))) = .ok e' → e' ≠ e ∧ ¬ e'.same e) ∧
      ∃ op l r, inner = (toSource (.binary op l r)).toList ∧
        OperandAt e before (.binary op l r) after := by
  rcases pair_toSource he hpair with hname | ⟨x, rfl, hx⟩
  · obtain ⟨c, hc, hname⟩ := hname.follows_name he
    rw [hcall c hc] at hname
    cases hname
  constructor
  · intro e' hparse
    have hcost : e'.cost ≤ e.cost - 1 := (hx.weighs he).cost_le hparse
    have hcheaper : e'.cost ≠ e.cost := by omega
    refine ⟨?_, fun hsame => hcheaper (cost_of_same hsame)⟩
    rintro rfl
    exact hcheaper rfl
  · obtain ⟨op, l, r, rfl⟩ := hx.operandAt.exists_binary
    exact ⟨op, l, r, rfl, hx.operandAt⟩

/-- Differences group to the left when the pair is missing; the call keeps its own. -/
theorem parentheses_needed_difference :
    let e : Expr :=
      .binary .subtract (.name "a") (.binary .subtract (.name "b") (.call "f" [.name "c"]))
    e.toSource = "a - (b - f(c))" ∧
      ∀ e', parse "a - b - f(c)" = .ok e' → e' ≠ e ∧ ¬ e'.same e := by
  intro e
  have hidentifier : ∀ c : Char, Lexer.isNameStart c → IsIdentifier (String.ofList [c]) :=
    fun c hc => ⟨c, [], String.toList_ofList, hc, nofun⟩
  have hwritable : Writable e := by
    refine ⟨nofun, ?_, ?_⟩
    · intro x hx
      simp only [e, names, collect, collectAll, List.mem_append, List.mem_cons, List.not_mem_nil,
        or_false] at hx
      rcases hx with rfl | rfl | rfl
      · exact hidentifier 'a' (by decide)
      · exact hidentifier 'b' (by decide)
      · exact hidentifier 'c' (by decide)
    · intro c hc
      simp only [e, calls, collect, collectAll, List.mem_append, List.mem_cons, List.not_mem_nil,
        or_false, false_or] at hc
      obtain rfl := hc
      exact hidentifier 'f' (by decide)
  have hpair : Pair e.toSource.toList "a - ".toList "b - f(c)".toList [] :=
    ⟨by decide, by decide⟩
  have hcall : ∀ c ∈ "a - ".toList.getLast?, isNameChar c = false := by
    simp [isNameChar, Lexer.isNameStart, Number.isDigit]
  exact ⟨by decide, (parentheses_needed hwritable hpair hcall).1⟩

end ArithCompiler.Tree

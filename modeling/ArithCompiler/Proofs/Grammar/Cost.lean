import Mathlib.Algebra.Order.Ring.Int
import ArithCompiler.Proofs.Grammar.Derivation
import ArithCompiler.Proofs.Tree.Structure
import ArithCompiler.Tree.Printer

set_option autoImplicit false

/-!
# How many parentheses a tree costs

Tokens are weighed: each opening parenthesis counts for one, and each number against one, since a
minus may bring in a zero that no token stands for. No tokens that stand for a tree weigh less than
the parentheses that its operators ask for, so a text with exactly these can spare none.
-/

namespace ArithCompiler

def Token.weight (t : Token) : ℤ :=
  if t.isSymbol "(" then 1 else if t.kind = .number then -1 else 0

namespace Token

variable {t : Token}

theorem weight_opening (h : t.isSymbol "(") : t.weight = 1 := if_pos h

theorem weight_symbol {symbol : String} (h : t.isSymbol symbol) (hne : symbol ≠ "(") :
    t.weight = 0 := by
  obtain ⟨hk, rfl⟩ := isSymbol_iff.1 h
  rw [weight, if_neg fun ho => hne (isSymbol_iff.1 ho).2, if_neg (by simp [hk])]

theorem weight_number (h : t.kind = .number) : t.weight = -1 := by
  rw [weight, if_neg fun ho => absurd ((isSymbol_iff.1 ho).1.symm.trans h) (by decide), if_pos h]

theorem weight_name (h : t.kind = .name) : t.weight = 0 := by
  rw [weight, if_neg fun ho => absurd ((isSymbol_iff.1 ho).1.symm.trans h) (by decide),
    if_neg (by simp [h])]

end Token

namespace Grammar

def weight (ts : List Token) : ℤ := (ts.map Token.weight).sum

theorem weight_nil : weight [] = 0 := rfl

theorem weight_cons (t : Token) (ts : List Token) : weight (t :: ts) = t.weight + weight ts :=
  List.sum_cons

theorem weight_append (ts us : List Token) : weight (ts ++ us) = weight ts + weight us := by
  rw [weight, List.map_append, List.sum_append]
  rfl

theorem weight_singleton (t : Token) : weight [t] = t.weight := by
  rw [weight_cons, weight_nil, add_zero]

/-- Between the two of them parentheses weigh as much as the opening one. -/
theorem weight_enclosed {opening closing : Token} (ho : opening.isSymbol "(")
    (hc : closing.isSymbol ")") (ts : List Token) :
    weight (opening :: (ts ++ [closing])) = 1 + weight ts := by
  rw [weight_cons, weight_append, weight_singleton, Token.weight_opening ho,
    Token.weight_symbol hc (by decide), add_zero]

end Grammar

namespace Tree

mutual
/-- The parentheses that the operators and calls of a tree ask for, less its numbers. -/
def cost : Expr → ℤ
  | number _ => -1
  | name _ => 0
  | binary op l r =>
    cost l + (if l.level < op.level then 1 else 0) + (cost r + if r.level ≤ op.level then 1 else 0)
  | call _ args => 1 + costAll args
  | foreign x => nomatch x

def costAll : List Expr → ℤ
  | [] => 0
  | e :: es => cost e + costAll es
end

theorem costAll_append (front back : List Expr) :
    costAll (front ++ back) = costAll front + costAll back := by
  induction front with
  | nil => rw [List.nil_append, costAll, zero_add]
  | cons e front ih => rw [List.cons_append, costAll, ih, costAll, add_assoc]

def costAt (n : Nat) (e : Expr) : ℤ := e.cost + if e.level < n then 1 else 0

theorem cost_binary (op : Operator) (l r : Expr) :
    cost (.binary op l r) = costAt op.level l + costAt (op.level + 1) r := by
  simp only [cost, costAt, Nat.lt_succ_iff]

theorem costAt_of_le {n : Nat} {e : Expr} (h : n ≤ e.level) : e.costAt n = e.cost := by
  rw [costAt, if_neg (Nat.not_lt_of_le h), add_zero]

theorem costAt_le (n : Nat) (e : Expr) : e.costAt n ≤ 1 + e.cost := by
  rw [costAt]
  split <;> omega

theorem costAt_mono {m n : Nat} (h : m ≤ n) (e : Expr) : e.costAt m ≤ e.costAt n := by
  rw [costAt, costAt]
  split <;> split <;> omega

theorem level_of_same {t u : Expr} (h : t.same u) : t.level = u.level := by
  cases t <;> cases u <;> simp [same, level] at h ⊢
  rw [h.1.1]

theorem costAll_of_sameAll {ts us : List Expr}
    (ih : ∀ t ∈ ts, ∀ {u : Expr}, t.same u → t.cost = u.cost) (h : sameAll ts us) :
    costAll ts = costAll us := by
  induction ts generalizing us with
  | nil =>
    cases us with
    | nil => rfl
    | cons u us => cases h
  | cons t ts iht =>
    cases us with
    | nil => cases h
    | cons u us =>
      simp only [sameAll, Bool.and_eq_true] at h
      rw [costAll, costAll, ih t List.mem_cons_self h.1,
        iht (fun a ha => ih a (List.mem_cons_of_mem t ha)) h.2]

theorem cost_of_same {t u : Expr} (h : t.same u) : t.cost = u.cost := by
  induction t using exprInduction generalizing u with
  | number v =>
    cases u with
    | number w => rfl
    | _ => simp [same] at h
  | name x =>
    cases u with
    | name y => rfl
    | _ => simp [same] at h
  | binary op l r ihl ihr =>
    cases u with
    | binary op' l' r' =>
      simp only [same, Bool.and_eq_true, beq_iff_eq] at h
      obtain ⟨⟨rfl, hl⟩, hr⟩ := h
      rw [cost, cost, ihl hl, ihr hr, level_of_same hl, level_of_same hr]
    | _ => simp [same] at h
  | call f args ih =>
    cases u with
    | call g args' =>
      simp only [same, Bool.and_eq_true, beq_iff_eq] at h
      have hargs : costAll args = costAll args' := costAll_of_sameAll ih h.2
      rw [cost, cost, hargs]
    | _ => simp [same] at h

theorem cost_le_costAt (n : Nat) (e : Expr) : e.cost ≤ e.costAt n := by
  rw [costAt]
  split <;> omega

end Tree

namespace Grammar

def Phrase.cost : Phrase → ℤ
  | expr e | sum e => e.costAt 1
  | product e => e.costAt 2
  | unary e | primary e => e.costAt 3
  | argList es | exprs es => Tree.costAll es

theorem cost_le_weight {ts : List Token} {p : Phrase} (h : Derives ts p) : p.cost ≤ weight ts := by
  induction h with
  | expr _ ih | unary _ ih | arguments _ ih => exact ih
  | sum _ ih => exact (Tree.costAt_mono (by decide) _).trans ih
  | product _ ih => exact (Tree.costAt_mono (by decide) _).trans ih
  | @addition ts us t op l r _ hlevel ht _ ihl ihr =>
    have hcost : Phrase.cost (.sum (.binary op l r)) = l.costAt 1 + r.costAt 2 := by
      rw [Phrase.cost, Tree.costAt_of_le (Operator.level_pos op), Tree.cost_binary, hlevel]
    rw [hcost, weight_append, weight_cons, Token.weight_symbol ht op.symbol_ne_opening, zero_add]
    exact add_le_add ihl ihr
  | @multiplication ts us t op l r _ hlevel ht _ ihl ihr =>
    have hcost : Phrase.cost (.product (.binary op l r)) = l.costAt 2 + r.costAt 3 := by
      rw [Phrase.cost, Tree.costAt_of_le hlevel.ge, Tree.cost_binary, hlevel]
    rw [hcost, weight_append, weight_cons, Token.weight_symbol ht op.symbol_ne_opening, zero_add]
    exact add_le_add ihl ihr
  | negative hm hk _ =>
    rw [weight_cons, weight_singleton, Token.weight_symbol hm (by decide), Token.weight_number hk]
    exact le_rfl
  | @negation minus t us e hm _ _ ih =>
    -- the parentheses around the difference pay for the zero that no token stands for
    have hcost : Phrase.cost (.unary (.binary .subtract (.number 0.0) e)) = e.costAt 2 := by
      have hloose : (Tree.binary .subtract (.number 0.0) e).level < 3 :=
        Nat.lt_succ_of_le Operator.subtract.level_le
      rw [Phrase.cost, Tree.costAt, if_pos hloose, Tree.cost_binary]
      change -1 + e.costAt 2 + 1 = _
      omega
    rw [hcost, weight_cons, Token.weight_symbol hm (by decide), zero_add]
    exact (Tree.costAt_mono (by decide) e).trans ih
  | number hk _ =>
    rw [weight_singleton, Token.weight_number hk]
    exact le_rfl
  | name hk =>
    rw [weight_singleton, Token.weight_name hk]
    exact le_rfl
  | @call t opening closing ts es hk ho _ hc ih =>
    have hcost : Phrase.cost (.primary (.call t.text es)) = 1 + Tree.costAll es :=
      Tree.costAt_of_le le_rfl
    rw [hcost, weight_cons, weight_enclosed ho hc, Token.weight_name hk, zero_add]
    exact add_le_add_right ih 1
  | @group opening closing ts e ho _ hc ih =>
    rw [weight_enclosed ho hc]
    have hcost := Tree.cost_le_costAt 1 e
    exact (Tree.costAt_le 3 e).trans (add_le_add_right (hcost.trans ih) 1)
  | noArguments => exact le_rfl
  | lastExpr _ ih =>
    rw [Phrase.cost, Tree.costAll, Tree.costAll, add_zero]
    exact (Tree.cost_le_costAt 1 _).trans ih
  | moreExprs _ ht _ ih ihs =>
    rw [weight_append, weight_cons, Token.weight_symbol ht (by decide), zero_add, Phrase.cost,
      Tree.costAll]
    exact add_le_add ((Tree.cost_le_costAt 1 _).trans ih) ihs

end Grammar

end ArithCompiler

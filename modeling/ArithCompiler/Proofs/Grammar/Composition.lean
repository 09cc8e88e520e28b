import Mathlib.Data.List.Forall2
import ArithCompiler.Proofs.Grammar.Unplaced
import ArithCompiler.Proofs.Lexer.Embedding
import ArithCompiler.Proofs.Tree.Layout

set_option autoImplicit false

/-!
# Texts put together

A text that is read as an expression is scanned to tokens that derive its tree, wherever it stands
before a delimiter. So such texts may be put together with parentheses, operators, a minus or the
name of a function, and the tree of the whole is made of the trees of the parts.
-/

namespace ArithCompiler

open Lexer (Gap Scans Word values delimited_cons delimited_gap delimited_of_symbol gap_nil scans_nil
  scans_of_tokens scans_word)

namespace Grammar

def Phrase.ofLevel : Nat → Expr → Phrase
  | 1, e => .sum e
  | 2, e => .product e
  | _, e => .unary e

theorem Derives.loosen {ts : List Token} {e : Expr} {m n : Nat} (hm : 1 ≤ m) (hmn : m ≤ n)
    (h : Derives ts (.ofLevel n e)) : Derives ts (.ofLevel m e) := by
  match n, m with
  | 0, _ => omega
  | 1, 1 | 2, 2 => exact h
  | 2, 1 => exact .sum h
  | _ + 3, 1 => exact .sum (.product h)
  | _ + 3, 2 => exact .product h
  | _ + 3, _ + 3 => exact h

/-- The text is scanned to tokens that derive the phrase, wherever a delimiter follows it. -/
def Spells (cs : List Char) (p : Phrase) : Prop := Scans cs fun ts => Derives ts p

section Parts

variable {cs ds w : List Char} {e l r : Expr} {op : Operator} {n : Nat}

theorem Spells.loosen (h : Spells cs (.ofLevel n e)) {m : Nat} (hm : 1 ≤ m) (hmn : m ≤ n) :
    Spells cs (.ofLevel m e) :=
  Scans.imp h fun _ hts => hts.loosen hm hmn

theorem Spells.expr (h : Spells cs (.ofLevel n e)) (hn : 1 ≤ n) : Spells cs (.expr e) :=
  Scans.imp (h.loosen (Nat.le_refl 1) hn) fun _ hts => .expr hts

/-! ## Texts of the parts -/

theorem scans_enclosed {P : List Token → Prop} (h : Scans cs P) :
    Scans ('(' :: (cs ++ [')'])) fun ts => ∃ opening us closing, Token.isSymbol opening "(" ∧
      P us ∧ Token.isSymbol closing ")" ∧ ts = opening :: (us ++ [closing]) := by
  have hclose : Scans [')'] fun ts => ∃ t : Token, t.isSymbol ")" ∧ ts = [t] :=
    scans_word (.symbol (by decide)) fun t hk ht => ⟨t, Token.isSymbol_iff.2 ⟨hk, ht⟩, rfl⟩
  have hbody : Scans (cs ++ [')']) fun ts =>
      ∃ us closing, P us ∧ Token.isSymbol closing ")" ∧ ts = us ++ [closing] := by
    refine h.append hclose (delimited_cons (by decide) _) ?_
    rintro us vs hus ⟨closing, hclosing, rfl⟩
    exact ⟨us, closing, hus, hclosing, rfl⟩
  refine hbody.symbol (by decide) ?_
  rintro opening ts hopening ⟨us, closing, hus, hclosing, rfl⟩
  exact ⟨opening, us, closing, hopening, hus, hclosing, rfl⟩

theorem Spells.group (h : Spells cs (.expr e)) : Spells ('(' :: (cs ++ [')'])) (.unary e) := by
  refine (scans_enclosed h).imp ?_
  rintro ts ⟨opening, us, closing, hopening, hus, hclosing, rfl⟩
  exact .unary (.group hopening hus hclosing)

/-- The parenthesis keeps the minus from a number that may stand behind it. -/
theorem Spells.negation (h : Spells cs (.expr e)) :
    Spells ('-' :: '(' :: (cs ++ [')'])) (.unary (.binary .subtract (.number 0.0) e)) := by
  refine (scans_enclosed h).symbol (by decide) ?_
  rintro minus ts hminus ⟨opening, us, closing, hopening, hus, hclosing, rfl⟩
  refine .negation hminus ?_ (.unary (.group hopening hus hclosing))
  rw [(Token.isSymbol_iff.1 hopening).1]
  decide

theorem scans_operation {P Q R : List Token → Prop} (hw : Gap w) (hl : Scans cs P) (hr : Scans ds Q)
    (h : ∀ us (t : Token) vs, P us → t.isSymbol op.symbol → Q vs → R (us ++ t :: vs)) :
    Scans (cs ++ (w ++ op.character :: (w ++ ds))) R := by
  have hrest : Scans (w ++ op.character :: (w ++ ds)) fun ts => ∃ (t : Token) (us : List Token),
      t.isSymbol op.symbol ∧ Q us ∧ ts = t :: us := by
    refine .gap hw ((Scans.gap hw hr).symbol op.character_mem ?_)
    intro t us ht hus
    exact ⟨t, us, by rw [op.symbol_eq]; exact ht, hus, rfl⟩
  refine Scans.append hl hrest (delimited_gap hw fun _ => delimited_of_symbol op.character_mem _) ?_
  rintro us vs hus ⟨t, vs, ht, hvs, rfl⟩
  exact h us t vs hus ht hvs

theorem Spells.operation (hw : Gap w) (hl : Spells cs (.ofLevel op.level l))
    (hr : Spells ds (.ofLevel (op.level + 1) r)) :
    Spells (cs ++ (w ++ op.character :: (w ++ ds))) (.ofLevel op.level (.binary op l r)) := by
  refine scans_operation hw hl hr fun us t vs hus ht hvs => ?_
  match op with
  | .add | .subtract => exact .addition hus rfl ht hvs
  | .multiply | .divide => exact .multiplication hus rfl ht hvs

/-- What holds of the last of some texts with commas between them, and goes on to one more in front,
    holds of all of them. -/
theorem scans_separated {α : Type} {P : α → List Token → Prop} {R : List α → List Token → Prop}
    (hw : Gap w) (hlast : ∀ a ts, P a ts → R [a] ts)
    (hmore : ∀ a as us (comma : Token) vs, P a us → comma.isSymbol "," → R as vs →
      R (a :: as) (us ++ comma :: vs))
    {texts : List (List Char)} {as : List α} (h : List.Forall₂ (fun cs a => Scans cs (P a)) texts as)
    (hne : as ≠ []) : Scans ((',' :: w).intercalate texts) (R as) := by
  induction h with
  | nil => exact absurd rfl hne
  | @cons cs a texts as hfirst hrest ih =>
    cases hrest with
    | nil =>
      rw [List.intercalate_singleton]
      exact hfirst.imp (hlast a)
    | @cons ds b texts as hsecond hrest =>
      have htail : Scans (',' :: (w ++ (',' :: w).intercalate (ds :: texts))) fun ts =>
          ∃ comma us, Token.isSymbol comma "," ∧ R (b :: as) us ∧ ts = comma :: us := by
        refine (Scans.gap hw (ih (List.cons_ne_nil _ _))).symbol (by decide) ?_
        intro comma us hcomma hus
        exact ⟨comma, us, hcomma, hus, rfl⟩
      rw [List.intercalate_cons_cons, List.append_assoc]
      refine Scans.append hfirst htail (delimited_cons (by decide) _) ?_
      rintro us vs hus ⟨comma, vs, hcomma, hvs, rfl⟩
      exact hmore a (b :: as) us comma vs hus hcomma hvs

theorem spells_list (hw : Gap w) {texts : List (List Char)} {args : List Expr}
    (h : List.Forall₂ (fun cs e => Spells cs (.expr e)) texts args) (hne : args ≠ []) :
    Spells ((',' :: w).intercalate texts) (.exprs args) :=
  scans_separated (P := fun e ts => Derives ts (.expr e)) (R := fun es ts => Derives ts (.exprs es))
    hw (fun _ _ hts => .lastExpr hts) (fun _ _ _ _ _ hus hcomma hvs => .moreExprs hus hcomma hvs) h
    hne

theorem spells_arguments (hw : Gap w) {texts : List (List Char)} {args : List Expr}
    (h : List.Forall₂ (fun cs e => Spells cs (.expr e)) texts args) :
    Spells ((',' :: w).intercalate texts) (.argList args) := by
  cases args with
  | nil =>
    obtain rfl := List.forall₂_nil_right_iff.1 h
    exact scans_nil .noArguments
  | cons a args =>
    exact Scans.imp (spells_list hw h (List.cons_ne_nil a args)) fun _ hts => .arguments hts

theorem scans_name {x : String} (hx : IsIdentifier x) :
    Scans x.toList fun ts => ∃ t : Token, t.kind = .name ∧ t.text = x ∧ ts = [t] := by
  obtain ⟨c, cs, heq, hc, hcs⟩ := hx
  have hword : Word .name x.toList := by
    rw [heq]
    exact .name hc hcs
  exact scans_word hword fun t hk ht => ⟨t, hk, by rw [ht, String.ofList_toList], rfl⟩

theorem scans_application {P : List Token → Prop} {f : String} (hf : IsIdentifier f)
    (h : Scans cs P) : Scans (f.toList ++ '(' :: (cs ++ [')'])) fun ts =>
      ∃ (t opening : Token) (us : List Token) (closing : Token), t.kind = .name ∧ t.text = f ∧
        opening.isSymbol "(" ∧ P us ∧ closing.isSymbol ")" ∧
        ts = t :: opening :: (us ++ [closing]) := by
  refine (scans_name hf).append (scans_enclosed h) (delimited_cons (by decide) _) ?_
  rintro us vs ⟨t, hk, ht, rfl⟩ ⟨opening, ws, closing, hopening, hws, hclosing, rfl⟩
  exact ⟨t, opening, ws, closing, hk, ht, hopening, hws, hclosing, rfl⟩

theorem Spells.application {f : String} {args : List Expr} (hf : IsIdentifier f)
    (h : Spells cs (.argList args)) :
    Spells (f.toList ++ '(' :: (cs ++ [')'])) (.unary (.call f args)) := by
  refine (scans_application hf h).imp ?_
  rintro ts ⟨t, opening, us, closing, hk, rfl, hopening, hus, hclosing, rfl⟩
  exact .unary (.call hk hopening hus hclosing)

end Parts

/-! ## Texts that are read -/

theorem Spells.parse {text : String} {e : Expr} (h : Spells text.toList (.expr e)) :
    parse text = .ok e := by
  obtain ⟨ts, mark, hts, hmark, htext, htokens⟩ := Scans.tokenize h
  exact parse_of_derives htokens hmark htext hts

theorem derives_of_values {ts us : List Token} {e : Expr} (h : Derives ts (.expr e))
    (hus : values us = values ts) : Derives us (.expr e) := by
  have hnil : EndsSum [] := endsSum_of_kind (by decide) (by unfold EndsUnary; decide)
  have hread := expr_of_derives h hnil
  rw [List.append_nil] at hread
  have hsame : (expr us).unplaced = (expr ts).unplaced := by
    rw [← expr_unmoved, ← expr_unmoved, map_unplaced_of_values hus]
  rw [hread] at hsame
  cases hdone : expr us with
  | stuck cause rest =>
    rw [hdone] at hsame
    cases hsame
  | done e' rest =>
    rw [hdone] at hsame
    obtain ⟨rfl, hrest⟩ := Parsed.done.inj hsame
    obtain rfl : rest = [] := List.map_eq_nil_iff.1 hrest
    obtain ⟨used, heq, hused⟩ := exprWithin_sound _ _ _ _ hdone
    rwa [heq, List.append_nil]

/-- A text that is read keeps its tree before any delimiter. -/
theorem spells_of_parse {text : String} {e : Expr} (h : parse text = .ok e) :
    Spells text.toList (.expr e) := by
  obtain ⟨ts, mark, htokens, -, hderives⟩ := derives_of_parse h
  exact (scans_of_tokens htokens).imp fun us hus => derives_of_values hderives hus

section Composed

variable {s t f : String} {a b : Expr} {texts : List String} {args : List Expr}

theorem spells_parenthesized (h : parse s = .ok a) : Spells ("(" ++ s ++ ")").toList (.unary a) := by
  have htext : ("(" ++ s ++ ")").toList = '(' :: (s.toList ++ [')']) := by simp
  rw [htext]
  exact (spells_of_parse h).group

theorem parse_parenthesized (h : parse s = .ok a) : parse ("(" ++ s ++ ")") = .ok a :=
  (Spells.expr (n := 3) (spells_parenthesized h) (by decide)).parse

theorem parse_operation (hs : parse s = .ok a) (ht : parse t = .ok b) (op : Operator) :
    parse ("(" ++ s ++ ")" ++ op.symbol ++ "(" ++ t ++ ")") = .ok (.binary op a b) := by
  have hlevel := op.level_le
  have hleft : Spells ("(" ++ s ++ ")").toList (.ofLevel op.level a) :=
    Spells.loosen (n := 3) (spells_parenthesized hs) op.level_pos (by omega)
  have hright : Spells ("(" ++ t ++ ")").toList (.ofLevel (op.level + 1) b) :=
    Spells.loosen (n := 3) (spells_parenthesized ht) (by omega) (by omega)
  have htext : ("(" ++ s ++ ")" ++ op.symbol ++ "(" ++ t ++ ")").toList =
      ("(" ++ s ++ ")").toList ++ ([] ++ op.character :: ([] ++ ("(" ++ t ++ ")").toList)) := by
    rw [op.symbol_eq]
    simp
  have hspells := Spells.operation gap_nil hleft hright
  rw [← htext] at hspells
  exact (hspells.expr op.level_pos).parse

theorem parse_negation (h : parse s = .ok a) :
    parse ("-(" ++ s ++ ")") = .ok (.binary .subtract (.number 0.0) a) := by
  have htext : ("-(" ++ s ++ ")").toList = '-' :: '(' :: (s.toList ++ [')']) := by simp
  have hspells := (spells_of_parse h).negation
  rw [← htext] at hspells
  exact (Spells.expr (n := 3) hspells (by decide)).parse

theorem parse_application (hf : IsIdentifier f)
    (hargs : List.Forall₂ (fun text e => parse text = .ok e) texts args) :
    parse (f ++ "(" ++ ",".intercalate texts ++ ")") = .ok (.call f args) := by
  have htexts : List.Forall₂ (fun cs e => Spells cs (.expr e)) (texts.map String.toList) args :=
    List.forall₂_map_left_iff.2 (hargs.imp fun _ _ h => spells_of_parse h)
  have htext : (f ++ "(" ++ ",".intercalate texts ++ ")").toList =
      f.toList ++ '(' :: ([','].intercalate (texts.map String.toList) ++ [')']) := by
    simp [String.toList_intercalate]
  have hspells := (spells_arguments gap_nil htexts).application hf
  rw [← htext] at hspells
  exact (Spells.expr (n := 3) hspells (by decide)).parse

/-- Texts that are read may be put together: parentheses change nothing, an operator between two
    texts in parentheses makes a node of their trees, a minus in front of one subtracts its tree from
    zero, and a name in front of a list of texts makes a call. -/
theorem parse_composed (hs : parse s = .ok a) (ht : parse t = .ok b) (op : Operator)
    (hf : IsIdentifier f) (hargs : List.Forall₂ (fun text e => parse text = .ok e) texts args) :
    parse ("(" ++ s ++ ")") = parse s ∧
      parse ("(" ++ s ++ ")" ++ op.symbol ++ "(" ++ t ++ ")") = .ok (.binary op a b) ∧
      parse ("-(" ++ s ++ ")") = .ok (.binary .subtract (.number 0.0) a) ∧
      parse (f ++ "(" ++ ",".intercalate texts ++ ")") = .ok (.call f args) :=
  ⟨by rw [hs, parse_parenthesized hs], parse_operation hs ht op, parse_negation hs,
    parse_application hf hargs⟩

end Composed

/-- A text with a line break and one that ends with a number. -/
theorem parse_composed_difference :
    parse "(a\n- b)*(2)" = .ok (.binary .multiply (.binary .subtract (.name "a") (.name "b"))
        (.number 2.0)) ∧
      parse "f(a\n- b,2)" = .ok (.call "f" [.binary .subtract (.name "a") (.name "b"),
        .number 2.0]) := by
  have hs : parse "a\n- b" = .ok (.binary .subtract (.name "a") (.name "b")) := by
    have htokens : tokenize "a\n- b" = .ok [⟨.name, "a", 1, 1⟩, ⟨.symbol, "-", 2, 1⟩,
        ⟨.name, "b", 2, 3⟩, ⟨.endOfInput, "", 2, 4⟩] := by cbv
    rw [parse_of_tokens htokens]
    rfl
  have ht : parse "2" = .ok (.number 2.0) := by
    have htokens : tokenize "2" = .ok ([⟨.number, "2", 1, 1⟩] ++ [⟨.endOfInput, "", 1, 2⟩]) := by
      cbv
    have htwo : Number.ofNumeral? "2".toList = some 2.0 := by decide
    exact parse_of_derives htokens rfl rfl (.expr (.sum (.product (.unary (.number rfl htwo)))))
  have hf : IsIdentifier "f" := ⟨'f', [], rfl, by decide, by simp⟩
  obtain ⟨-, hproduct, -, hcall⟩ := parse_composed hs ht .multiply hf (.cons hs (.cons ht .nil))
  exact ⟨hproduct, hcall⟩

end Grammar

end ArithCompiler

import ArithCompiler.Proofs.Tree.RoundTrip
import ArithCompiler.Tree.Traversal

set_option autoImplicit false

/-!
# The leaves of a tree in its text

A traversal sees the leaves of a tree from left to right. In the text of the tree they are the numbers
and those names that no parenthesis is opened after: what else is printed are signs, operators,
commas, parentheses and the names of functions, and none of these is taken for a leaf.
-/

namespace ArithCompiler

open Lexer (Scans gap_blank scans_nil scans_word)
open Grammar (current scans_application scans_enclosed scans_name scans_operation scans_separated)
open Number (magnitudeText standard)

namespace Tree

def atoms : Expr → List Leaf := collect (fun v => [.number v]) (fun x => [.name x]) fun _ _ => []

theorem atoms_binary (op : Operator) (l r : Expr) : atoms (.binary op l r) = atoms l ++ atoms r :=
  rfl

theorem atoms_call (f : String) (args : List Expr) :
    atoms (.call f args) = args.flatMap atoms := by
  have hargs : collectAll (fun v => [.number v]) (fun x => [.name x]) (fun _ _ => []) args
      = args.flatMap atoms := by
    induction args with
    | nil => rfl
    | cons a args ih =>
      rw [collectAll, ih]
      rfl
  change collectAll _ _ _ args ++ [] = _
  rw [hargs, List.append_nil]

end Tree

/-! ## What a traversal sees -/

theorem Reaction.pass_around {ω : Type} (parts : Trail ω) : pass.around parts = parts := by
  obtain ⟨seen, stop⟩ := parts
  cases stop <;> simp [pass, around, Trail.andThen]

namespace Visitor

variable {ω : Type} (leaf : Leaf → List ω)

theorem leaves_visitAll {es : List Expr}
    (h : ∀ e ∈ es, (leaves leaf).walk e = ⟨e.atoms.flatMap leaf, none⟩) :
    (leaves leaf).visitAll es = ⟨(es.flatMap Tree.atoms).flatMap leaf, none⟩ := by
  induction es with
  | nil => rfl
  | cons e es ih =>
    rw [visitAll, h e List.mem_cons_self, ih fun a ha => h a (List.mem_cons_of_mem _ ha),
      List.flatMap_cons, List.flatMap_append]
    exact congrArg (Trail.andThen · _) (Reaction.pass_around _)

theorem leaves_walk (e : Expr) : (leaves leaf).walk e = ⟨e.atoms.flatMap leaf, none⟩ := by
  induction e using Tree.exprInduction with
  | number v => exact congrArg (Trail.mk · none) (List.flatMap_singleton ..).symm
  | name x => exact congrArg (Trail.mk · none) (List.flatMap_singleton ..).symm
  | binary op l r ihl ihr =>
    rw [walk, ihl, ihr, Tree.atoms_binary, List.flatMap_append]
    change Reaction.pass.around ((Reaction.pass.around _).andThen (Reaction.pass.around _)) = _
    rw [Reaction.pass_around, Reaction.pass_around, Reaction.pass_around]
    rfl
  | call f args ih =>
    rw [walk, leaves_visitAll leaf ih, Tree.atoms_call]
    exact Reaction.pass_around _

/-- A traversal that goes through everything sees each leaf once, from left to right. -/
theorem leaves_visit (e : Expr) : (leaves leaf).visit e = ⟨e.atoms.flatMap leaf, none⟩ := by
  rw [visit, leaves_walk]
  exact Reaction.pass_around _

end Visitor

/-! ## The leaves that tokens show -/

/-- How a leaf stands in a text: a number without its sign, and one that is not finite by a name. -/
def Leaf.shown : Leaf → Leaf
  | number v =>
    match Number.view v with
    | .notANumber => name "nan"
    | .infinity _ => name "inf"
    | .zero _ | .finite _ _ _ _ => number v.abs
  | name x => name x
  | bare => bare

def Token.leaf? (t : Token) : Option Leaf :=
  match t.kind with
  | .number => (Number.ofNumeral? t.text.toList).map .number
  | .name => some (.name t.text)
  | .symbol | .endOfInput => none

namespace Grammar

/-- The numbers, and the names that no parenthesis is opened after. -/
def atomTokens : List Token → List Token
  | [] => []
  | t :: rest =>
    if t.kind = .number ∨ t.kind = .name ∧ ¬ (current rest).isSymbol "(" then t :: atomTokens rest
    else atomTokens rest

/-- The tokens show these leaves and no others, before whatever is no opening parenthesis. -/
def Shows (atoms : List Leaf) (ts : List Token) : Prop :=
  ∀ next, ¬ (current next).isSymbol "(" → (atomTokens (ts ++ next)).map Token.leaf?
    = atoms.map (fun a => some a.shown) ++ (atomTokens next).map Token.leaf?

theorem atomTokens_symbol {t : Token} {symbol : String} (h : t.isSymbol symbol)
    (rest : List Token) : atomTokens (t :: rest) = atomTokens rest := by
  have hk := (Token.isSymbol_iff.1 h).1
  rw [atomTokens, if_neg (by simp [hk])]

namespace Shows

variable {as bs : List Leaf} {ts us vs : List Token} {t opening closing : Token} {s : String}

theorem nil : Shows [] [] := fun _ _ => rfl

theorem atom {a : Leaf} (hk : t.kind = .number ∨ t.kind = .name) (ht : t.leaf? = some a.shown) :
    Shows [a] [t] := by
  intro next hnext
  rw [List.cons_append, List.nil_append, atomTokens, if_pos (hk.imp_right fun hk => ⟨hk, hnext⟩),
    List.map_cons, ht]
  rfl

theorem symbol (ht : t.isSymbol s) (h : Shows as ts) : Shows as (t :: ts) := by
  intro next hnext
  rw [List.cons_append, atomTokens_symbol ht, h next hnext]

theorem between (hus : Shows as us) (ht : t.isSymbol s) (hs : s ≠ "(")
    (hvs : Shows bs vs) : Shows (as ++ bs) (us ++ t :: vs) := by
  intro next hnext
  -- What follows the first part is the symbol, so no name at the end of that part is called.
  have hclosed : ¬ (current (t :: vs ++ next)).isSymbol "(" := fun hopen =>
    hs ((Token.isSymbol_iff.1 ht).2.symm.trans (Token.isSymbol_iff.1 hopen).2)
  rw [List.append_assoc, hus _ hclosed, hvs.symbol ht next hnext, List.map_append,
    List.append_assoc]

theorem enclosed (hopening : opening.isSymbol "(") (h : Shows as us)
    (hclosing : closing.isSymbol ")") : Shows as (opening :: (us ++ [closing])) := by
  have hinside := h.between hclosing (by decide) nil
  rw [List.append_nil] at hinside
  exact hinside.symbol hopening

theorem application (hk : t.kind = .name) (hopening : opening.isSymbol "(")
    (h : Shows as (opening :: us)) : Shows as (t :: opening :: us) := by
  intro next hnext
  have hname : ¬ (t.kind = .number ∨ t.kind = .name ∧
      ¬ (current (opening :: us ++ next)).isSymbol "(") := by
    rw [hk]
    rintro (hnumber | ⟨-, hclosed⟩)
    · cases hnumber
    · exact hclosed hopening
  rw [List.cons_append, atomTokens, if_neg hname]
  exact h next hnext

end Shows

end Grammar

open Grammar (Shows atomTokens)

/-! ## The leaves of a printed text -/

namespace Tree

theorem scans_magnitude (v : Float) : Scans (magnitudeText standard v) fun ts => ∃ t : Token,
    (t.kind = .number ∨ t.kind = .name) ∧ t.leaf? = some (Leaf.number v).shown ∧ ts = [t] := by
  have hname : ∀ {x : String}, IsIdentifier x → (Leaf.number v).shown = .name x →
      Scans x.toList fun ts => ∃ t : Token, (t.kind = .number ∨ t.kind = .name) ∧
        t.leaf? = some (Leaf.number v).shown ∧ ts = [t] := by
    intro x hx hshown
    refine (scans_name hx).imp ?_
    rintro ts ⟨t, hk, ht, rfl⟩
    exact ⟨t, .inr hk, by rw [hshown, Token.leaf?, hk, ht], rfl⟩
  cases hv : Number.view v with
  | notANumber =>
    have htext : magnitudeText standard v = "nan".toList := by rw [magnitudeText, hv]; rfl
    rw [htext]
    exact hname isIdentifier_nan (by rw [Leaf.shown, hv])
  | infinity s =>
    have htext : magnitudeText standard v = "inf".toList := by rw [magnitudeText, hv]; rfl
    rw [htext]
    exact hname isIdentifier_inf (by rw [Leaf.shown, hv])
  | zero s | finite s m e hm =>
    have hfinite : v.isFinite := by
      change (Number.view v).isFinite = true
      rw [hv]
      rfl
    refine scans_word (.number (Number.numeral_magnitudeText hfinite)) fun t hk ht => ?_
    refine ⟨t, .inl hk, ?_, rfl⟩
    rw [Token.leaf?, hk, ht, String.toList_ofList, Number.ofNumeral?_magnitudeText hfinite,
      Leaf.shown, hv]
    rfl

theorem scans_number (v : Float) : Scans (Number.text v).toList (Shows [.number v]) := by
  rw [Number.toList_text, Number.chars]
  split
  · refine (scans_magnitude v).symbol (by decide) ?_
    rintro minus ts hminus ⟨t, hk, ht, rfl⟩
    exact (Shows.atom hk ht).symbol hminus
  · refine (scans_magnitude v).imp ?_
    rintro ts ⟨t, hk, ht, rfl⟩
    exact .atom hk ht

theorem scans_operand {e : Expr} (h : Scans e.toSource.toList (Shows e.atoms)) (needed : Bool) :
    Scans (operandChars needed e) (Shows e.atoms) := by
  cases needed with
  | false => simpa [operandChars, opening, closing] using h
  | true =>
    refine (scans_enclosed h).imp ?_
    rintro ts ⟨opening, us, closing, hopening, hus, hclosing, rfl⟩
    exact hus.enclosed hopening hclosing

theorem scans_arguments {args : List Expr}
    (h : ∀ a ∈ args, Scans a.toSource.toList (Shows a.atoms)) :
    Scans (sourceList args).toList (Shows (args.flatMap atoms)) := by
  cases args with
  | nil => exact scans_nil .nil
  | cons a args =>
    have htexts : List.Forall₂ (fun cs (a : Expr) => Scans cs (Shows a.atoms))
        ((a :: args).map fun a => a.toSource.toList) (a :: args) :=
      List.forall₂_map_left_iff.2 (List.forall₂_same.2 h)
    rw [toList_sourceList]
    refine scans_separated (P := fun a ts => Shows a.atoms ts)
      (R := fun as ts => Shows (as.flatMap atoms) ts) gap_blank (fun a ts hts => ?_)
      (fun a as us comma vs hus hcomma hvs => ?_) htexts (List.cons_ne_nil a args)
    · rwa [List.flatMap_singleton]
    · rw [List.flatMap_cons]
      exact hus.between hcomma (by decide) hvs

theorem scans_atoms {e : Expr} (h : Nameable e) : Scans e.toSource.toList (Shows e.atoms) := by
  induction e using exprInduction with
  | number v => exact scans_number v
  | name x =>
    refine (scans_name (h.names x (List.mem_singleton.2 rfl))).imp ?_
    rintro ts ⟨t, hk, rfl, rfl⟩
    exact .atom (.inr hk) (by rw [Token.leaf?, hk]; rfl)
  | binary op l r ihl ihr =>
    have htext : (toSource (.binary op l r)).toList = operandChars (l.level < op.level) l
        ++ ([' '] ++ op.character :: ([' '] ++ operandChars (r.level ≤ op.level) r)) :=
      toList_binary op l r
    rw [htext]
    refine scans_operation gap_blank (scans_operand (ihl h.left) _) (scans_operand (ihr h.right) _)
      fun us t vs hus ht hvs => ?_
    exact hus.between ht op.symbol_ne_opening hvs
  | call f args ih =>
    rw [toList_call, atoms_call]
    refine (scans_application h.function (scans_arguments fun a ha => ih a ha (h.argument ha))).imp ?_
    rintro ts ⟨t, opening, us, closing, hk, -, hopening, hus, hclosing, rfl⟩
    exact (hus.enclosed hopening hclosing).application hk hopening

/-- The text of a tree has tokens, and of these the numbers and the names that are not called are the
    leaves of the tree. -/
theorem tokenize_atoms {e : Expr} (h : Nameable e) : ∃ tokens, tokenize e.toSource = .ok tokens ∧
    (atomTokens tokens).map Token.leaf? = e.atoms.map fun a => some a.shown := by
  obtain ⟨ts, mark, hts, hmark, -, htokens⟩ := (scans_atoms h).tokenize
  have hend : ¬ (current [mark]).isSymbol "(" := fun hopen =>
    absurd ((Token.isSymbol_iff.1 hopen).1.symm.trans hmark) (by decide)
  have hnone : atomTokens [mark] = [] := by simp [atomTokens, hmark]
  refine ⟨ts ++ [mark], htokens, ?_⟩
  rw [hts [mark] hend, hnone, List.map_nil, List.append_nil]

end Tree

end ArithCompiler

import ArithCompiler.Proofs.Tree.Image

set_option autoImplicit false

/-!
# Formatting a text again

A text is formatted by reading it and writing down its tree. What is read from the formatted text
has no number that is not finite, so it is read back from its own text. Only a negative infinity is
written longer the second time, as a difference.
-/

namespace ArithCompiler

open Grammar (Derives)
open Number (negativeInfinity)

namespace Tree

/-! ## The text of what is read back -/

theorem rereadNumber_cases (v : Float) :
    rereadNumber v = .number v ∧ v.isFinite ∨
      (∃ x, rereadNumber v = .name x ∧ Number.text v = x ∧ v ≠ negativeInfinity) ∨
      rereadNumber v = .binary .subtract (.number 0.0) (.name "inf") ∧ v = negativeInfinity := by
  by_cases hfinite : v.isFinite
  · exact .inl ⟨rereadNumber_of_isFinite hfinite, hfinite⟩
  · right
    change ¬ (Number.view v).isFinite at hfinite
    rw [rereadNumber]
    cases hv : Number.view v with
    | notANumber =>
      obtain rfl : v = Number.notANumber := Number.eq_notANumber (Number.isNaN_iff.2 hv)
      exact .inl ⟨"nan", rfl, by decide, by decide⟩
    | infinity s =>
      cases s with
      | positive =>
        obtain rfl : v = Number.positiveInfinity := Number.view_inj hv
        exact .inl ⟨"inf", rfl, by decide, by decide⟩
      | negative =>
        obtain rfl : v = negativeInfinity := Number.view_inj hv
        exact .inr ⟨rfl, rfl⟩
    | zero s | finite s m e hm =>
      rw [hv] at hfinite
      exact absurd rfl hfinite

theorem isFinite_reread {e : Expr} : ∀ v ∈ e.reread.numbers, v.isFinite := by
  induction e using exprInduction with
  | number v =>
    rw [reread]
    obtain ⟨heq, hfinite⟩ | ⟨x, heq, -⟩ | ⟨heq, -⟩ := rereadNumber_cases v
    · rw [heq]
      exact List.forall_mem_singleton.2 hfinite
    · rw [heq]
      exact List.forall_mem_nil _
    · rw [heq]
      exact List.forall_mem_singleton.2 (by decide)
  | name x => exact List.forall_mem_nil _
  | binary op l r ihl ihr =>
    intro v hv
    exact (List.mem_append.1 hv).elim (ihl v) (ihr v)
  | call f args ih =>
    intro v hv
    rw [reread, rereadAll_eq_map] at hv
    rcases (mem_collect_call _ _ _).1 hv with ⟨a, ha, hv⟩ | hv
    · obtain ⟨b, hb, rfl⟩ := List.mem_map.1 ha
      exact ih b hb v hv
    · cases hv

theorem reread_reread (e : Expr) : e.reread.reread = e.reread :=
  reread_of_finite isFinite_reread

theorem level_le (e : Expr) : e.level ≤ 3 := by
  unfold level
  split
  · rename_i op _ _
    exact op.level_le.trans (by decide)
  · exact le_rfl

theorem level_reread_le (e : Expr) : e.reread.level ≤ e.level := by
  cases e with
  | number v => exact level_le _
  | name x => exact le_rfl
  | binary op l r => exact le_rfl
  | call f args => exact le_rfl
  | foreign x => exact x.elim

theorem level_reread {e : Expr} (h : negativeInfinity ∉ e.numbers) : e.reread.level = e.level := by
  cases e with
  | number v =>
    rw [reread]
    obtain ⟨heq, -⟩ | ⟨x, heq, -⟩ | ⟨-, rfl⟩ := rereadNumber_cases v
    · rw [heq]
    · rw [heq]
      rfl
    · exact absurd (List.mem_singleton.2 rfl) h
  | name x => rfl
  | binary op l r => rfl
  | call f args => rfl
  | foreign x => exact x.elim

theorem toSource_reread {e : Expr} (h : negativeInfinity ∉ e.numbers) :
    e.reread.toSource = e.toSource := by
  induction e using exprInduction with
  | number v =>
    rw [reread]
    obtain ⟨heq, -⟩ | ⟨x, heq, htext, -⟩ | ⟨-, rfl⟩ := rereadNumber_cases v
    · rw [heq]
    · rw [heq]
      exact htext.symm
    · exact absurd (List.mem_singleton.2 rfl) h
  | name x => rfl
  | binary op l r ihl ihr =>
    have hl : negativeInfinity ∉ l.numbers := fun hmem => h (List.mem_append_left _ hmem)
    have hr : negativeInfinity ∉ r.numbers := fun hmem => h (List.mem_append_right _ hmem)
    rw [reread, toSource, toSource, ihl hl, ihr hr, level_reread hl, level_reread hr]
  | call f args ih =>
    have hargs : ∀ a ∈ args, a.reread.toSource = a.toSource := fun a ha =>
      ih a ha fun hmem => h ((mem_collect_call _ _ _).2 (.inl ⟨a, ha, hmem⟩))
    have hlist : sourceList (args.map reread) = sourceList args := by
      clear ih h
      induction args with
      | nil => rfl
      | cons a args iha =>
        have hfirst := hargs a List.mem_cons_self
        have hmore := iha fun b hb => hargs b (List.mem_cons_of_mem _ hb)
        cases args with
        | nil => exact hfirst
        | cons b args =>
          rw [List.map_cons, List.map_cons, sourceList_cons_cons, hfirst, ← List.map_cons, hmore,
            sourceList_cons_cons]
    rw [reread, rereadAll_eq_map, toSource, toSource, hlist]

theorem length_parenthesized (needed : Bool) (text : String) :
    (parenthesized needed text).length = text.length + if needed then 2 else 0 := by
  cases needed with
  | false => rfl
  | true =>
    rw [parenthesized, if_pos rfl, String.length_append, String.length_append]
    change 1 + text.length + 1 = text.length + 2
    omega

theorem length_parenthesized_le {needed needed' : Bool} {text text' : String} {n : Nat}
    (hneeded : needed → needed') (h : text.length + n ≤ text'.length) :
    (parenthesized needed text).length + n ≤ (parenthesized needed' text').length := by
  rw [length_parenthesized, length_parenthesized]
  cases needed with
  | false => exact Nat.le_add_right_of_le h
  | true =>
    rw [if_pos rfl, if_pos (hneeded rfl)]
    omega

theorem length_sourceList_le {args : List Expr}
    (h : ∀ a ∈ args, a.toSource.length + a.numbers.countP (· = negativeInfinity)
      ≤ a.reread.toSource.length) :
    (sourceList args).length + (args.flatMap numbers).countP (· = negativeInfinity)
      ≤ (sourceList (args.map reread)).length := by
  induction args with
  | nil => exact le_rfl
  | cons a args iha =>
    have hfirst := h a List.mem_cons_self
    have hmore := iha fun b hb => h b (List.mem_cons_of_mem _ hb)
    cases args with
    | nil =>
      rw [List.flatMap_singleton]
      exact hfirst
    | cons b args =>
      rw [List.map_cons, List.map_cons, sourceList_cons_cons, sourceList_cons_cons,
        ← List.map_cons, List.flatMap_cons, List.countP_append]
      simp only [String.length_append]
      omega

theorem numbers_call (f : String) (args : List Expr) :
    numbers (.call f args) = args.flatMap numbers := by
  change collectAll _ _ _ args ++ [] = _
  rw [List.append_nil]
  induction args with
  | nil => rfl
  | cons a args ih =>
    rw [collectAll, ih, List.flatMap_cons]
    rfl

theorem countP_number {v : Float} (h : v ≠ negativeInfinity) :
    (numbers (.number v)).countP (· = negativeInfinity) = 0 :=
  List.countP_eq_zero.2 (List.forall_mem_singleton.2 (by simpa using h))

/-- Each negative infinity makes the text longer that is read and written once more. -/
theorem length_toSource_le (e : Expr) :
    e.toSource.length + e.numbers.countP (· = negativeInfinity) ≤ e.reread.toSource.length := by
  induction e using exprInduction with
  | number v =>
    rw [reread]
    obtain ⟨heq, hfinite⟩ | ⟨x, heq, htext, hne⟩ | ⟨heq, rfl⟩ := rereadNumber_cases v
    · have hne : v ≠ negativeInfinity := by
        rintro rfl
        exact absurd hfinite (by decide)
      rw [heq, countP_number hne, Nat.add_zero]
    · rw [heq, countP_number hne, Nat.add_zero, toSource, htext, toSource]
    · rw [heq]
      decide
  | name x => exact le_rfl
  | binary op l r ihl ihr =>
    have hleft := level_reread_le l
    have hright := level_reread_le r
    have hnumbers : numbers (.binary op l r) = l.numbers ++ r.numbers := rfl
    have hl : (l.level < op.level : Bool) → (l.reread.level < op.level : Bool) := by
      simp only [decide_eq_true_eq]
      omega
    have hr : (r.level ≤ op.level : Bool) → (r.reread.level ≤ op.level : Bool) := by
      simp only [decide_eq_true_eq]
      omega
    have hfirst := length_parenthesized_le hl ihl
    have hsecond := length_parenthesized_le hr ihr
    rw [reread, toSource, toSource, hnumbers, List.countP_append]
    simp only [String.length_append]
    omega
  | call f args ih =>
    have hlist := length_sourceList_le ih
    rw [reread, rereadAll_eq_map, toSource, toSource, numbers_call]
    simp only [String.length_append]
    omega

theorem toSource_reread_iff (e : Expr) :
    e.reread.toSource = e.toSource ↔ negativeInfinity ∉ e.numbers := by
  refine ⟨fun heq hmem => ?_, toSource_reread⟩
  have hlength := length_toSource_le e
  have hcount : 0 < e.numbers.countP (· = negativeInfinity) :=
    List.countP_pos_iff.2 ⟨_, hmem, by simp⟩
  rw [heq] at hlength
  omega

/-! ## Formatting twice -/

/-- A formatted text is read, and formatting it again changes it exactly when a negative infinity is
    written in it; the text after that stays what it is. -/
theorem parse_formatted {source : String} {e : Expr} (h : parse source = .ok e) :
    ∃ e₁, parse e.toSource = .ok e₁ ∧
      (e₁.toSource = e.toSource ↔ negativeInfinity ∉ e.numbers) ∧ parse e₁.toSource = .ok e₁ := by
  have hagain : parse e.toSource = .ok e.reread := parse_reread (Grammar.nameable_of_parse h)
  refine ⟨e.reread, hagain, toSource_reread_iff e, ?_⟩
  rw [parse_reread (Grammar.nameable_of_parse hagain), reread_reread]

theorem parse_formatted_infinities :
    ∃ e, parse "1e999/-1e999" = .ok e ∧ ∃ e₁, parse e.toSource = .ok e₁ ∧
      (e₁.toSource = e.toSource ↔ negativeInfinity ∉ e.numbers) ∧ parse e₁.toSource = .ok e₁ := by
  have htokens : tokenize "1e999/-1e999" = .ok ([⟨.number, "1e999", 1, 1⟩, ⟨.symbol, "/", 1, 6⟩,
      ⟨.symbol, "-", 1, 7⟩, ⟨.number, "1e999", 1, 8⟩] ++ [⟨.endOfInput, "", 1, 13⟩]) := by cbv
  have hleft : Derives [⟨.number, "1e999", 1, 1⟩] (.product (.number Number.positiveInfinity)) :=
    .product (.unary (.number rfl ofNumeral?_overflow))
  have hright : Derives [⟨.symbol, "-", 1, 7⟩, ⟨.number, "1e999", 1, 8⟩]
      (.unary (.number (-Number.positiveInfinity))) :=
    .negative (by decide) rfl ofNumeral?_overflow
  have hdivision : "/" = Operator.divide.symbol := rfl
  have hparse := Grammar.parse_of_derives htokens rfl rfl
    (.expr (.sum (.multiplication hleft rfl (Token.isSymbol_iff.2 ⟨rfl, hdivision⟩) hright)))
  exact ⟨_, hparse, parse_formatted hparse⟩

/-- A negative infinity is written with a minus, and that is read and written as a difference. -/
theorem formatted_negative_infinity_changes :
    ∃ e, parse "-1e999" = .ok e ∧ ¬ ∃ e₁, parse e.toSource = .ok e₁ ∧ e₁.toSource = e.toSource := by
  have htokens : tokenize "-1e999" = .ok ([⟨.symbol, "-", 1, 1⟩, ⟨.number, "1e999", 1, 2⟩] ++
      [⟨.endOfInput, "", 1, 7⟩]) := by cbv
  have hunary : Derives [⟨.symbol, "-", 1, 1⟩, ⟨.number, "1e999", 1, 2⟩]
      (.unary (.number (-Number.positiveInfinity))) :=
    .negative (by decide) rfl ofNumeral?_overflow
  have hparse := Grammar.parse_of_derives htokens rfl rfl (.expr (.sum (.product hunary)))
  refine ⟨_, hparse, ?_⟩
  rintro ⟨e₁, hagain, htext⟩
  rw [parse_reread (Grammar.nameable_of_parse hparse)] at hagain
  cases hagain
  exact absurd htext (by decide)

end Tree

end ArithCompiler

import ArithCompiler.Proofs.Grammar.Viability

set_option autoImplicit false

/-!
# The narrow readers

There are readers for one number or name and for one call. They begin at the production for it, below
those for sums, products and signs. They read what the reader of expressions reads as the same tree,
if the text is a single token, or if it is a call and begins with its name.
-/

namespace ArithCompiler.Grammar

def IsAtomText (source : String) : Prop :=
  ∃ t mark, tokenize source = .ok [t, mark] ∧ (t.kind = .number ∨ t.kind = .name)

def BeginsWithName (source : String) : Prop :=
  ∃ t rest, tokenize source = .ok (t :: rest) ∧ t.kind = .name

theorem parse_of_primary {source : String} {ts : List Token} {mark : Token} {e : Expr}
    (htokens : tokenize source = .ok (ts ++ [mark])) (h : Derives ts (.primary e)) :
    parse source = .ok e := by
  obtain ⟨hmark, htext, -⟩ := (Lexer.complete_of_tokensFrom htokens).of_append
  exact parse_of_derives htokens hmark htext (.expr (.sum (.product (.unary h))))

/-! ## Numbers and names -/

theorem atom_eq_done {ts rest : List Token} {a : Expr} (h : atom ts = .done a rest) :
    ((current ts).kind = .number ∨ (current ts).kind = .name) ∧ ts = current ts :: rest := by
  unfold atom at h
  split at h
  · rename_i hk
    obtain ⟨v, -, -, rfl⟩ := literal_eq_done h
    exact ⟨.inl hk, eq_cons_of_kind hk (by decide)⟩
  · rename_i hk
    cases h
    exact ⟨.inr hk, eq_cons_of_kind hk (by decide)⟩
  · cases h

theorem isAtomText_of_parseAtom {source : String} {a : Expr} (h : parseAtom source = .ok a) :
    IsAtomText source := by
  obtain ⟨ts, mark, rest, htokens, hmark, hwords, hatom, hstop⟩ := parseWith_eq_ok h
  obtain ⟨hk, heq⟩ := atom_eq_done hatom
  generalize current (ts ++ [mark]) = t at hk heq
  have hkinds : ∀ u ∈ ts, u.kind ≠ .endOfInput := fun u hu => kind_of_word (hwords u hu)
  have hkind : ∀ u ∈ [t], u.kind ≠ .endOfInput := by
    refine List.forall_mem_singleton.2 fun hend => ?_
    rcases hk with hk | hk <;> exact absurd (hk.symm.trans hend) (by decide)
  obtain rfl : [t] = ts := split_at_mark hkinds hmark hkind hstop heq
  exact ⟨t, mark, htokens, hk⟩

theorem parse_atomText {source : String} (h : IsAtomText source) :
    ∃ a, parseAtom source = .ok a ∧ parse source = .ok a := by
  obtain ⟨t, mark, hsingle, hk⟩ := h
  have htokens : tokenize source = .ok ([t] ++ [mark]) := hsingle
  obtain ⟨hmark, -, -⟩ := (Lexer.complete_of_tokensFrom htokens).of_append
  obtain ⟨a, hatom, hderives⟩ : ∃ a, atom [t, mark] = .done a [mark] ∧ Derives [t] (.primary a) := by
    rcases hk with hk | hk
    · obtain ⟨v, hv⟩ := readable_of_tokens htokens t List.mem_cons_self hk
      exact ⟨.number v, by simp [atom, hk, literal_of_number hk hv], .number hk hv⟩
    · exact ⟨.name t.text, by simp [atom, hk, advance_cons], .name hk⟩
  refine ⟨a, ?_, parse_of_primary htokens hderives⟩
  rw [parseAtom, parseWith_of_tokens atom hsingle, whole_eq_done.2 ⟨hatom, hmark⟩]
  rfl

/-! ## Calls -/

theorem functionCall_eq_done {inner : Production Expr} {ts rest : List Token} {e : Expr}
    (h : functionCall inner ts = .done e rest) :
    (current ts).kind = .name ∧ ∃ args, e = .call (current ts).text args := by
  unfold functionCall at h
  split at h
  · rename_i hk
    obtain ⟨_, opened, -, h⟩ := Parsed.bind_eq_done.1 h
    obtain ⟨args, closed, -, h⟩ := Parsed.bind_eq_done.1 h
    obtain ⟨_, -, rfl⟩ := Parsed.map_eq_done.1 h
    exact ⟨hk, args, rfl⟩
  · cases h

/-- Nested as deep as the tokens allow, arguments are read as they are by the reader that counts the
    depth anew for every one of them: no production looks behind the closing parenthesis. -/
theorem argList_of_derives {ts : List Token} {args : List Expr} (h : Derives ts (.argList args))
    {closing : Token} (hc : closing.isSymbol ")") (rest : List Token) :
    argList expr (ts ++ closing :: rest) = .done args (closing :: rest) := by
  have hwithin : argList (exprWithin (ts.length + 1)) (ts ++ closing :: rest) =
      .done args (closing :: rest) := reads_of_derives h ts.length (Nat.le_refl _) _ hc
  have hinner : ∀ n, Local n (exprWithin (ts.length + 1)) expr := fun n us =>
    Repeats.diagonal fun m _ => exprWithin_local _ m us
  have hrepeats := argList_local (hinner ((ts ++ closing :: rest).length + 1)) (ts ++ closing :: rest)
  rw [hwithin] at hrepeats
  exact (hrepeats trivial).2 ts closing rest rest rfl rfl (Nat.lt_succ_self _)

/-- An expression that is a call and begins with a name is nothing but the call. -/
theorem derives_call {t : Token} {ts us : List Token} {f : String} {args : List Expr}
    (h : Derives us (.expr (.call f args))) (hus : us = t :: ts) (hk : t.kind = .name) :
    ∃ opening inside closing, ts = opening :: (inside ++ [closing]) ∧ f = t.text ∧
      opening.isSymbol "(" ∧ Derives inside (.argList args) ∧ closing.isSymbol ")" := by
  cases h with
  | expr h =>
  cases h with
  | sum h =>
  cases h with
  | product h =>
  cases h with
  | unary h =>
    cases h with
    | call _ ho hargs hc =>
      obtain ⟨rfl, rfl⟩ := List.cons.inj hus
      exact ⟨_, _, _, rfl, rfl, ho, hargs, hc⟩
    | group ho =>
      obtain ⟨rfl, -⟩ := List.cons.inj hus
      exact absurd ((Token.isSymbol_iff.1 ho).1.symm.trans hk) (by decide)

theorem parseCall_of_parse {source : String} {f : String} {args : List Expr}
    (h : parse source = .ok (.call f args)) (hname : BeginsWithName source) :
    parseCall source = .ok (.call f args) := by
  obtain ⟨t, rest, hbegin, hk⟩ := hname
  obtain ⟨ts, mark, htokens, -, hderives⟩ := derives_of_parse h
  obtain ⟨hmark, -, -⟩ := (Lexer.complete_of_tokensFrom htokens).of_append
  have hts := Except.ok.inj (htokens.symm.trans hbegin)
  cases ts with
  | nil =>
    obtain ⟨rfl, -⟩ := List.cons.inj hts
    exact absurd (hmark.symm.trans hk) (by decide)
  | cons u ts =>
    obtain ⟨rfl, -⟩ := List.cons.inj hts
    obtain ⟨opening, inside, closing, rfl, rfl, ho, hargs, hc⟩ := derives_call hderives rfl hk
    have hread : functionCall expr (u :: opening :: (inside ++ [closing]) ++ [mark]) =
        .done (.call u.text args) [mark] := by
      simp [functionCall, hk, advance_cons, expect_of_isSymbol ho, argList_of_derives hargs hc,
        Parsed.bind, expect_of_isSymbol hc, Parsed.map]
    rw [parseCall, parseWith_of_tokens _ htokens, whole_eq_done.2 ⟨hread, hmark⟩]
    rfl

theorem parse_of_parseCall {source : String} {e : Expr} (h : parseCall source = .ok e) :
    parse source = .ok e ∧ (∃ f args, e = .call f args) ∧ BeginsWithName source := by
  obtain ⟨ts, mark, htokens, -, hderives⟩ := derives_of_parseWith (functionCall_sound expr_sound) h
  obtain ⟨us, last, rest, htokens', -, -, hcall, -⟩ := parseWith_eq_ok h
  obtain ⟨hk, args, heq⟩ := functionCall_eq_done hcall
  refine ⟨parse_of_primary htokens hderives, ⟨_, args, heq⟩, ?_⟩
  rw [eq_cons_of_kind hk (by decide)] at htokens'
  exact ⟨_, _, htokens', hk⟩

/-! ## Both readers -/

/-- The reader of atoms reads exactly the texts of one number or name, and the reader of calls those
    that are read as a call and begin with a name. Both have the tree that the text is read as. -/
theorem parseAtom_parseCall_iff (source : String) :
    (∀ a, parseAtom source = .ok a ↔ parse source = .ok a ∧ IsAtomText source) ∧
      ((∃ a, parseAtom source = .ok a) ↔ IsAtomText source) ∧
      ∀ e, parseCall source = .ok e ↔
        parse source = .ok e ∧ (∃ f args, e = .call f args) ∧ BeginsWithName source := by
  refine ⟨fun a => ⟨fun h => ?_, ?_⟩, ⟨?_, fun h => ?_⟩, fun e => ⟨parse_of_parseCall, ?_⟩⟩
  · have hatom := isAtomText_of_parseAtom h
    obtain ⟨b, hb, hparse⟩ := parse_atomText hatom
    obtain rfl := Except.ok.inj (h.symm.trans hb)
    exact ⟨hparse, hatom⟩
  · rintro ⟨h, hatom⟩
    obtain ⟨b, hb, hparse⟩ := parse_atomText hatom
    obtain rfl := Except.ok.inj (h.symm.trans hparse)
    exact hb
  · rintro ⟨a, h⟩
    exact isAtomText_of_parseAtom h
  · obtain ⟨a, ha, -⟩ := parse_atomText h
    exact ⟨a, ha⟩
  · rintro ⟨h, ⟨f, args, rfl⟩, hname⟩
    exact parseCall_of_parse h hname

end ArithCompiler.Grammar

import ArithCompiler.Proofs.Grammar.Completeness
import ArithCompiler.Proofs.Grammar.Progress

set_option autoImplicit false

/-!
# How far a production looks

A production looks no further than the token at which it leaves off. It does the same on every list
that has the same tokens up to that one, whether it is done there or stuck, and whatever follows.
-/

namespace ArithCompiler

namespace Parsed

variable {α : Type}

def withRest (us : List Token) : Parsed α → Parsed α
  | done value _ => done value us
  | stuck cause _ => stuck cause us

def IsReport : Parsed α → Prop
  | done _ _ => True
  | stuck cause _ => cause.IsReport

end Parsed

namespace Grammar

/-- The outcome `o`, reached from `ts`, is also that of `q` on every list of fewer than `bound`
    tokens that agrees with `ts` up to the first token that `o` leaves. -/
def Repeats {α : Type} (bound : Nat) (ts : List Token) (o : Parsed α) (q : Production α) : Prop :=
  o.IsReport → o.rest <:+ ts ∧ ∀ used t rest more, ts = used ++ t :: rest → o.rest = t :: rest →
    (used ++ t :: more).length < bound → q (used ++ t :: more) = o.withRest (t :: more)

section Outcomes

variable {α β : Type} {n m : Nat} {ts us : List Token} {o : Parsed α} {q q' : Production α}

theorem append_eq_current {used rest : List Token} {t : Token} (h : ts = used ++ t :: rest)
    (more : List Token) : ∃ tail, used ++ t :: more = current ts :: tail := by
  subst h
  cases used with
  | nil => exact ⟨more, rfl⟩
  | cons u used => exact ⟨used ++ t :: more, rfl⟩

theorem Repeats.mono (h : Repeats n ts o q) (hm : m ≤ n) : Repeats m ts o q := by
  intro ho
  obtain ⟨hsuffix, heq⟩ := h ho
  exact ⟨hsuffix, fun used t rest more hts hrest hlen => heq used t rest more hts hrest (by omega)⟩

theorem Repeats.congr (h : Repeats n ts o q)
    (hq : 0 < n → ∀ tail, q' (current ts :: tail) = q (current ts :: tail)) :
    Repeats n ts o q' := by
  intro ho
  obtain ⟨hsuffix, heq⟩ := h ho
  refine ⟨hsuffix, fun used t rest more hts hrest hlen => ?_⟩
  obtain ⟨tail, htail⟩ := append_eq_current hts more
  rw [← heq used t rest more hts hrest hlen, htail, hq (by omega)]

theorem Repeats.stay (hrest : o.rest = ts)
    (hq : 0 < n → ∀ tail, q (current ts :: tail) = o.withRest (current ts :: tail)) :
    Repeats n ts o q := by
  intro _
  refine ⟨hrest ▸ List.suffix_refl _, fun used t rest more hts ho hlen => ?_⟩
  obtain rfl : used = [] := by
    have hsame := congrArg List.length (hts.symm.trans (hrest.symm.trans ho))
    simpa using hsame
  obtain rfl : current ts = t := by rw [hts]; rfl
  exact hq (by omega) more

theorem Repeats.cons {t : Token} (h : Repeats (n - 1) us o q)
    (hq : 0 < n → ∀ tail, q' (t :: current us :: tail) = q (current us :: tail)) :
    Repeats n (t :: us) o q' := by
  intro ho
  obtain ⟨hsuffix, heq⟩ := h ho
  refine ⟨hsuffix.trans (List.suffix_cons t us), fun used t' rest more hts hrest hlen => ?_⟩
  cases used with
  | nil =>
    obtain ⟨rfl, rfl⟩ : t = t' ∧ us = rest := by simpa using hts
    have hlong := hsuffix.length_le
    rw [hrest] at hlong
    exact absurd hlong (by simp)
  | cons u used =>
    obtain ⟨rfl, hus⟩ : t = u ∧ us = used ++ t' :: rest := by simpa using hts
    obtain ⟨tail, htail⟩ := append_eq_current hus more
    rw [List.cons_append, List.length_cons] at hlen
    rw [← heq used t' rest more hus hrest (by omega), List.cons_append, htail, hq (by omega)]

theorem Repeats.bind {next : α → List Token → Parsed β} {next' : α → Production β}
    (h : Repeats n ts o q)
    (hnext : ∀ a middle, o = .done a middle → Repeats n middle (next a middle) (next' a)) :
    Repeats n ts (o.bind next) fun us => (q us).bind next' := by
  cases o with
  | stuck cause left =>
    intro ho
    obtain ⟨hsuffix, heq⟩ := h ho
    refine ⟨hsuffix, fun used t rest more hts hrest hlen => ?_⟩
    simp only [heq used t rest more hts hrest hlen]
    rfl
  | done a middle =>
    change Repeats n ts (next a middle) _
    intro ho
    obtain ⟨⟨front, (rfl : front ++ middle = ts)⟩, heq⟩ := h trivial
    obtain ⟨⟨back, hback⟩, hmore⟩ := hnext a middle rfl ho
    refine ⟨⟨front ++ back, by rw [List.append_assoc, hback]⟩,
      fun used t rest more hts hrest hlen => ?_⟩
    rw [hrest] at hback
    subst hback
    obtain rfl : used = front ++ back := by
      rw [← List.append_assoc] at hts
      exact (List.append_cancel_right hts).symm
    rw [List.append_assoc] at hlen ⊢
    -- the token at which the first outcome ends is the first one of the second, or `t` itself
    have hnew : q (front ++ (back ++ t :: more)) = .done a (back ++ t :: more) := by
      cases back with
      | nil => exact heq front t rest more rfl rfl hlen
      | cons u back => exact heq front u _ (back ++ t :: more) rfl rfl hlen
    simp only [hnew]
    exact hmore back t rest more rfl hrest (by rw [List.length_append] at hlen; omega)

theorem Repeats.map (h : Repeats n ts o q) (f : α → β) :
    Repeats n ts (o.map f) fun us => (q us).map f := by
  intro ho
  cases o
  all_goals
    obtain ⟨hsuffix, heq⟩ := h ho
    refine ⟨hsuffix, fun used t rest more hts hrest hlen => ?_⟩
    simp only [heq used t rest more hts hrest hlen]
    rfl

/-- The bound on repetition may be taken from the list itself. -/
theorem Repeats.diagonal {q : Nat → Production α} (h : ∀ m ≤ n, Repeats m ts o (q m)) :
    Repeats n ts o fun us => q (us.length + 1) us := by
  intro ho
  refine ⟨(h n (Nat.le_refl n) ho).1, fun used t rest more hts hrest hlen => ?_⟩
  exact (h _ hlen ho).2 used t rest more hts hrest (Nat.lt_succ_self _)

end Outcomes

/-! ## Productions -/

def Local {α : Type} (bound : Nat) (p q : Production α) : Prop := ∀ ts, Repeats bound ts (p ts) q

theorem Local.mono {α : Type} {n m : Nat} {p q : Production α} (h : Local n p q) (hm : m ≤ n) :
    Local m p q := fun ts => (h ts).mono hm

theorem expect_local (symbol : String) (n : Nat) : Local n (expect symbol) (expect symbol) := by
  intro ts
  by_cases h : (current ts).isSymbol symbol
  · rw [eq_cons_of_isSymbol h, expect_of_isSymbol h]
    exact Repeats.cons (q := .done (current ts)) (.stay rfl fun _ _ => rfl)
      fun _ tail => expect_of_isSymbol h _
  · refine .stay (by simp [expect, h, Parsed.rest]) fun _ tail => ?_
    simp [expect, h, Parsed.withRest]

theorem expectEnd_local (n : Nat) : Local n expectEnd expectEnd := by
  intro ts
  by_cases h : (current ts).kind = .endOfInput
  all_goals
    refine .stay (by simp [expectEnd, h, Parsed.rest]) fun _ tail => ?_
    simp [expectEnd, h, Parsed.withRest]

theorem literal_repeats {ts : List Token} (hk : (current ts).kind = .number)
    (finish : Float → Float) (n : Nat) : Repeats n ts (literal finish ts) (literal finish) := by
  cases hv : Number.ofNumeral? (current ts).text.toList with
  | none =>
    have hstuck : literal finish ts = .stuck .malformedNumber (advance ts) := by
      rw [literal, hv]
    rw [hstuck]
    exact fun ho => absurd ho (by simp [Parsed.IsReport, GrammarCause.IsReport])
  | some v =>
    rw [eq_cons_of_kind hk (by decide), literal_of_number hk hv]
    exact Repeats.cons (q := .done _) (.stay rfl fun _ _ => rfl)
      fun _ tail => literal_of_number hk hv finish _

theorem atom_local (n : Nat) : Local n atom atom := by
  intro ts
  cases hk : (current ts).kind with
  | number =>
    have hatom : atom ts = literal id ts := by simp [atom, hk]
    rw [hatom]
    exact (literal_repeats hk id n).congr fun _ tail => by simp [atom, hk]
  | name =>
    have hatom : ∀ us, atom (current ts :: us) = .done (.name (current ts).text) us := fun us => by
      simp [atom, hk, advance_cons]
    rw [eq_cons_of_kind hk (by decide), hatom]
    exact Repeats.cons (q := .done _) (.stay rfl fun _ _ => rfl) fun _ tail => hatom _
  | symbol | endOfInput =>
    refine .stay (by simp [atom, hk, Parsed.rest]) fun _ tail => ?_
    simp [atom, hk, Parsed.withRest]

/-- The induction is on the number of operators that `chainFrom` may still read; every one of them
    takes a token from both lists. -/
theorem chainFrom_repeats {operator? : Token → Option Operator} {operand operand' : Production Expr}
    (hop : ∀ {t op}, operator? t = some op → t.isSymbol op.symbol) {bound : Nat}
    (hoperand : Local bound operand operand') (n m : Nat) (hm : bound ≤ m) (l : Expr)
    (ts : List Token) :
    Repeats bound ts (chainFrom operator? operand n l ts) (chainFrom operator? operand' m l) := by
  induction n generalizing bound m l ts with
  | zero => exact fun ho => absurd ho (by simp [chainFrom, Parsed.IsReport, GrammarCause.IsReport])
  | succ n ih =>
    rw [chainFrom]
    cases ho : operator? (current ts) with
    | none =>
      refine .stay rfl fun hb tail => ?_
      have hend : operator? (current (current ts :: tail)) = none := ho
      exact chainFrom_end hend operand' (by omega) l
    | some op =>
      have hsymbol := hop ho
      have hless := hoperand.mono (Nat.sub_le bound 1)
      have hmore := (hless (advance ts)).bind fun r middle _ =>
        ih hless (m - 1) (by omega) (.binary op l r) middle
      conv => arg 2; rw [eq_cons_of_isSymbol hsymbol]
      refine hmore.cons fun hb tail => ?_
      obtain ⟨m, rfl⟩ := Nat.exists_eq_succ_of_ne_zero (show m ≠ 0 by omega)
      simp [chainFrom, ho, advance_of_isSymbol hsymbol]

theorem chain_local {operator? : Token → Option Operator} {operand operand' : Production Expr}
    (hop : ∀ {t op}, operator? t = some op → t.isSymbol op.symbol) {bound : Nat}
    (hoperand : Local bound operand operand') :
    Local bound (chain operator? operand) (chain operator? operand') := by
  intro ts
  refine (hoperand ts).bind fun l middle _ => ?_
  exact Repeats.diagonal fun m hm =>
    chainFrom_repeats hop (hoperand.mono hm) _ m (Nat.le_refl m) l middle

section Nested

variable {inner inner' : Production Expr} {bound : Nat}

/-- As for `chainFrom`, with the commas in the place of the operators. -/
theorem listFrom_repeats (hinner : Local bound inner inner') (n m : Nat) (hm : bound ≤ m)
    (ts : List Token) : Repeats bound ts (listFrom inner n ts) (listFrom inner' m) := by
  induction n generalizing bound m ts with
  | zero => exact fun ho => absurd ho (by simp [listFrom, Parsed.IsReport, GrammarCause.IsReport])
  | succ n ih =>
    have hitems : Repeats bound ts (listFrom inner (n + 1) ts) fun us =>
        (inner' us).bind fun e rest =>
          if (current rest).isSymbol "," then (listFrom inner' (m - 1) (advance rest)).map (e :: ·)
          else .done [e] rest := by
      refine (hinner ts).bind fun e middle _ => ?_
      by_cases hcomma : (current middle).isSymbol ","
      · have hmore := (ih (hinner.mono (Nat.sub_le bound 1)) (m - 1) (by omega)
          (advance middle)).map (e :: ·)
        rw [if_pos hcomma]
        conv => arg 2; rw [eq_cons_of_isSymbol hcomma]
        exact hmore.cons fun _ tail => by simp [hcomma, advance_of_isSymbol hcomma]
      · rw [if_neg hcomma]
        exact .stay rfl fun _ tail => by simp [hcomma, Parsed.withRest]
    refine hitems.congr fun hb tail => ?_
    obtain ⟨m, rfl⟩ := Nat.exists_eq_succ_of_ne_zero (show m ≠ 0 by omega)
    rfl

theorem argList_local (hinner : Local bound inner inner') :
    Local bound (argList inner) (argList inner') := by
  intro ts
  by_cases h : (current ts).isSymbol ")"
  · exact .stay (by simp [argList, h, Parsed.rest]) fun _ tail => by
      simp [argList, h, Parsed.withRest]
  · have hitems := Repeats.diagonal (q := listFrom inner') fun m hm =>
      listFrom_repeats (hinner.mono hm) (ts.length + 1) m (Nat.le_refl m) ts
    rw [argList, if_neg h]
    exact hitems.congr fun _ tail => by simp [argList, h]

def callRest (inner : Production Expr) (function : String) : Production Expr := fun ts =>
  (expect "(" ts).bind fun _ opened =>
    (argList inner opened).bind fun es closed =>
      (expect ")" closed).map fun _ => .call function es

theorem functionCall_cons {t : Token} (hk : t.kind = .name) (us : List Token) :
    functionCall inner (t :: us) = callRest inner t.text us := by
  simp [functionCall, callRest, hk, advance_cons]

theorem callRest_local (hinner : Local bound inner inner') (function : String) :
    Local bound (callRest inner function) (callRest inner' function) := by
  intro ts
  exact (expect_local "(" bound ts).bind fun _ opened _ =>
    (argList_local hinner opened).bind fun es closed _ =>
      (expect_local ")" bound closed).map _

theorem functionCall_local (hinner : Local bound inner inner') :
    Local (bound + 1) (functionCall inner) (functionCall inner') := by
  intro ts
  by_cases hk : (current ts).kind = .name
  · rw [eq_cons_of_kind hk (by decide), functionCall_cons hk]
    exact Repeats.cons (n := bound + 1) (callRest_local hinner _ (advance ts))
      fun _ tail => functionCall_cons hk _
  · exact .stay (by simp [functionCall, hk, Parsed.rest]) fun _ tail => by
      simp [functionCall, hk, Parsed.withRest]

theorem parenthesized_local (hinner : Local bound inner inner') :
    Local (bound + 1) (parenthesized inner) (parenthesized inner') := by
  intro ts
  by_cases ho : (current ts).isSymbol "("
  · have hgroup := (hinner (advance ts)).bind fun e closed _ =>
      (expect_local ")" bound closed).map fun _ => e
    rw [parenthesized, if_pos ho]
    conv => arg 2; rw [eq_cons_of_isSymbol ho]
    exact Repeats.cons (n := bound + 1) hgroup fun _ tail => by
      simp [parenthesized, ho, advance_of_isSymbol ho]
  · exact .stay (by simp [parenthesized, ho, Parsed.rest]) fun _ tail => by
      simp [parenthesized, ho, Parsed.withRest]

theorem primary_local (hinner : Local bound inner inner') :
    Local (bound + 1) (primary inner) (primary inner') := by
  intro ts
  cases hk : (current ts).kind with
  | number =>
    have hprimary : primary inner ts = atom ts := by simp [primary, hk]
    rw [hprimary]
    exact (atom_local (bound + 1) ts).congr fun _ tail => by simp [primary, hk]
  | name =>
    -- the token after the name decides, and both outcomes leave off at it or further on
    have hts := eq_cons_of_kind hk (by decide)
    generalize current ts = t at hk hts
    generalize advance ts = us at hts
    subst hts
    by_cases hopen : (current us).text = "("
    · have hprimary : primary inner (t :: us) = callRest inner t.text us := by
        simp [primary, hk, advance_cons, hopen, functionCall_cons]
      rw [hprimary]
      exact Repeats.cons (n := bound + 1) (callRest_local hinner _ us) fun _ tail => by
        simp [primary, hk, advance_cons, hopen, functionCall_cons]
    · have hprimary : primary inner (t :: us) = .done (.name t.text) us := by
        simp [primary, hk, advance_cons, hopen, atom]
      rw [hprimary]
      exact Repeats.cons (q := .done (.name t.text)) (.stay rfl fun _ _ => rfl) fun _ tail => by
        simp [primary, hk, advance_cons, hopen, atom]
  | symbol | endOfInput =>
    have hprimary : primary inner ts = parenthesized inner ts := by simp [primary, hk]
    rw [hprimary]
    exact (parenthesized_local hinner ts).congr fun _ tail => by simp [primary, hk]

theorem unary_local (hinner : Local bound inner inner') :
    Local (bound + 1) (unary inner) (unary inner') := by
  intro ts
  induction ts generalizing bound with
  | nil =>
    refine (primary_local hinner []).congr fun _ tail => ?_
    simp [unary, current, Token.isSymbol]
  | cons t us ih =>
    rw [unary]
    by_cases hminus : t.isSymbol "-"
    · rw [if_pos hminus]
      by_cases hk : (current us).kind = .number
      · rw [if_pos hk]
        exact Repeats.cons (literal_repeats hk (-·) bound) fun _ tail => by simp [unary, hminus, hk]
      · rw [if_neg hk]
        exact Repeats.cons (((ih hinner).mono (Nat.le_succ bound)).map _) fun _ tail => by
          simp [unary, hminus, hk]
    · rw [if_neg hminus]
      exact (primary_local hinner (t :: us)).congr fun _ tail => by simp [unary, hminus]

theorem product_local (hinner : Local bound inner inner') :
    Local (bound + 1) (product inner) (product inner') :=
  chain_local (fun h => (productOperator?_eq_some_iff.1 h).2) (unary_local hinner)

theorem sum_local (hinner : Local bound inner inner') :
    Local (bound + 1) (sum inner) (sum inner') :=
  chain_local (fun h => (sumOperator?_eq_some_iff.1 h).2) (product_local hinner)

end Nested

theorem exprWithin_local (n m : Nat) : Local m (exprWithin n) (exprWithin m) := by
  induction n generalizing m with
  | zero =>
    intro ts ho
    exact absurd ho (by simp [exprWithin, Parsed.IsReport, GrammarCause.IsReport])
  | succ n ih =>
    intro ts
    have hsum := (sum_local (ih (m - 1))).mono (show m ≤ m - 1 + 1 by omega) ts
    refine hsum.congr fun hm tail => ?_
    obtain ⟨m, rfl⟩ := Nat.exists_eq_succ_of_ne_zero (show m ≠ 0 by omega)
    rfl

theorem expr_local (n : Nat) : Local n expr expr := by
  intro ts
  exact Repeats.diagonal fun m _ => exprWithin_local (ts.length + 1) m ts

theorem whole_local {p q : Production Expr} {n : Nat} (h : Local n p q) :
    Local n (whole p) (whole q) := by
  intro ts
  exact (h ts).bind fun e middle _ => (expectEnd_local n middle).map fun _ => e

end Grammar

end ArithCompiler

import ArithCompiler.Proofs.Grammar.Totality

set_option autoImplicit false

/-!
# Driving a cursor

A driver may ask anything of a cursor in any order, and go on after an error from where the refused
call has left off. The cursor stays at a token of the text and never goes back, a call that reads a
tree goes forward, and an error is always about the token at which the cursor then is.
-/

namespace ArithCompiler

namespace Cursor

open Grammar (Production Rule Method Readable Marked Local Orderly)

/-! ## Calls -/

/-- What a driver may ask for. A token further on is asked for by its distance. -/
inductive Call where
  | current
  | advance
  | peek (offset : Nat)
  | isAt (symbol : String)
  | isAtKind (title : String)
  | expect (symbol : String)
  | expectEnd
  | read (rule : Rule)
  | readArguments

inductive Answer where
  | token (t : Token)
  | truth (b : Bool)
  | done
  | tree (e : Expr)
  | trees (es : List Expr)

inductive Failure where
  | refused (error : SourceError)
  | noToken

/-- A method begins with a look at the current token, and gets no further if there is none. -/
def atToken (c : Cursor) (result : Except Failure Answer × Cursor) :
    Except Failure Answer × Cursor :=
  if c.pos < c.tokens.length then result else (.error .noToken, c)

def answered {α : Type} (answer : α → Answer) (result : Except SourceError α × Cursor) :
    Except Failure Answer × Cursor :=
  ((result.1.map answer).mapError .refused, result.2)

def performWith (inner : Production Expr) (c : Cursor) : Call → Except Failure Answer × Cursor
  | .current => c.atToken (.ok (.token c.current), c)
  | .advance => c.atToken (.ok (.token c.current), c.advance)
  | .peek offset => ((c.peek? offset).elim (.error .noToken) fun t => .ok (.token t), c)
  | .isAt symbol => c.atToken (.ok (.truth (c.isAt symbol)), c)
  | .isAtKind title => c.atToken (.ok (.truth (c.current.kind.title == title)), c)
  | .expect symbol => c.atToken (answered .token (c.expect symbol))
  | .expectEnd => c.atToken (answered (fun _ => .done) c.expectEnd)
  | .read rule => c.atToken (answered .tree (c.run (rule.production inner)))
  | .readArguments => c.atToken (answered .trees (c.run (Grammar.argList inner)))

def perform : Cursor → Call → Except Failure Answer × Cursor := performWith Grammar.expr

structure Exchange where
  call : Call
  before : Cursor
  outcome : Except Failure Answer
  after : Cursor

def exchange (c : Cursor) (call : Call) : Exchange :=
  ⟨call, c, (c.perform call).1, (c.perform call).2⟩

def exchanges (c : Cursor) : List Call → List Exchange
  | [] => []
  | call :: calls => c.exchange call :: exchanges (c.exchange call).after calls

def places (c : Cursor) (calls : List Call) : List Nat :=
  c.pos :: (c.exchanges calls).map (·.after.pos)

/-! ## What one call does -/

structure Within (tokens : List Token) (c : Cursor) : Prop where
  tokens_eq : c.tokens = tokens
  pos_lt : c.pos < tokens.length

structure Exchange.Safe (tokens : List Token) (x : Exchange) : Prop where
  before : x.before.Within tokens
  after : x.after.Within tokens
  forward : x.before.pos ≤ x.after.pos
  /-- The text does not fit at the token where the call has left off. No loop has run out of turns
      and no nesting has been too deep, as these are no errors of a text. -/
  failure : ∀ f, x.outcome = .error f → ∃ error t, f = .refused error ∧ error.IsParseError ∧
    tokens[x.after.pos]? = some t ∧ error.line = t.line ∧ error.col = t.col
  progress : ∀ rule, x.call = .read rule → x.outcome.isOk → x.before.pos < x.after.pos
  /-- Nesting that is deeper than there are tokens left is never asked for. -/
  bounded : ∀ n, tokens.length < x.before.pos + n →
    x.before.performWith (Grammar.exprWithin n) x.call = (x.outcome, x.after)
  /-- Tokens behind the end would not be looked at, unless the driver asks for one of them. -/
  alone : (∀ offset, x.call ≠ .peek offset) → ∀ more,
    (Cursor.mk (tokens ++ more) x.before.pos).perform x.call =
      (x.outcome, ⟨tokens ++ more, x.after.pos⟩)

section Steps

variable {tokens : List Token} {pos : Nat} {call : Call}

/-- From its place the call has this outcome and ends at the place `k`, with any production for
    nested expressions that can be relied on for so many tokens, and whatever tokens are behind the
    end. -/
def Settles (tokens : List Token) (pos : Nat) (call : Call) (outcome : Except Failure Answer)
    (k : Nat) : Prop :=
  ∀ n inner more, Local n Grammar.expr inner → tokens.length + more.length < pos + n →
    (Cursor.mk (tokens ++ more) pos).performWith inner call = (outcome, ⟨tokens ++ more, k⟩)

theorem safe_of_settles (hpos : pos < tokens.length) {outcome : Except Failure Answer} {k : Nat}
    (h : Settles tokens pos call outcome k) (hforward : pos ≤ k) (hk : k < tokens.length)
    (hfailure : ∀ f, outcome = .error f → ∃ error t, f = .refused error ∧ error.IsParseError ∧
      tokens[k]? = some t ∧ error.line = t.line ∧ error.col = t.col)
    (hprogress : ∀ rule, call = .read rule → outcome.isOk → pos < k) :
    ((Cursor.mk tokens pos).exchange call).Safe tokens := by
  -- the production for expressions can be relied on for any number of tokens
  have halone : ∀ more, (Cursor.mk (tokens ++ more) pos).perform call =
      (outcome, ⟨tokens ++ more, k⟩) := fun more =>
    h (tokens.length + more.length + 1) _ more (Grammar.expr_local _) (by omega)
  have hperform : (Cursor.mk tokens pos).perform call = (outcome, ⟨tokens, k⟩) := by
    simpa only [List.append_nil] using halone []
  rw [exchange, hperform]
  refine ⟨⟨rfl, hpos⟩, ⟨rfl, hk⟩, hforward, hfailure, hprogress, fun n hn => ?_, fun _ => halone⟩
  simpa only [List.append_nil] using
    h n _ [] (fun ts => Grammar.exprWithin_local (ts.length + 1) n ts) hn

theorem current_append (hpos : pos < tokens.length) (more : List Token) :
    (Cursor.mk (tokens ++ more) pos).current = (Cursor.mk tokens pos).current := by
  simp only [current, remaining, List.drop_append_of_le_length (Nat.le_of_lt hpos),
    List.drop_eq_getElem_cons hpos]
  rfl

theorem atToken_append (hpos : pos < tokens.length) (more : List Token)
    (result : Except Failure Answer × Cursor) :
    (Cursor.mk (tokens ++ more) pos).atToken result = result :=
  if_pos (by simp only [List.length_append]; omega)

theorem safe_of_look (hpos : pos < tokens.length) (answer : Token → Answer) {move : Cursor → Cursor}
    {k : Nat} (hcall : ∀ inner c, performWith inner c call =
      c.atToken (.ok (answer c.current), move c))
    (hmove : ∀ more, move ⟨tokens ++ more, pos⟩ = ⟨tokens ++ more, k⟩) (hforward : pos ≤ k)
    (hk : k < tokens.length) (hrule : ∀ rule, call ≠ .read rule) :
    ((Cursor.mk tokens pos).exchange call).Safe tokens := by
  have hsettles : Settles tokens pos call (.ok (answer (Cursor.mk tokens pos).current)) k := by
    intro n inner more _ _
    rw [hcall, atToken_append hpos, current_append hpos, hmove]
  exact safe_of_settles hpos hsettles hforward hk nofun fun rule h => absurd h (hrule rule)

theorem advance_append (hpos : pos < tokens.length) (more : List Token) :
    (Cursor.mk (tokens ++ more) pos).advance =
      ⟨tokens ++ more, (Cursor.mk tokens pos).advance.pos⟩ := by
  simp only [advance, current_append hpos]
  split <;> rfl

theorem pos_le_advance (c : Cursor) : c.pos ≤ c.advance.pos := by
  unfold advance
  split
  · exact Nat.le_refl _
  · exact Nat.le_succ _

theorem pos_lt_of_orderly {α : Type} {p : Production α} (hpos : pos < tokens.length)
    (h : Orderly 1 (tokens.drop pos) (p (tokens.drop pos)))
    (hok : ((Cursor.mk tokens pos).run p).1.isOk) : pos < ((Cursor.mk tokens pos).run p).2.pos := by
  simp only [run, remaining] at hok ⊢
  cases hp : p (tokens.drop pos) with
  | done a rest =>
    rw [hp] at h
    have hlen := h.2
    rw [List.length_drop] at hlen
    simp only [Parsed.rest]
    omega
  | stuck cause rest =>
    rw [hp] at hok
    cases hok

theorem safe_of_method {α : Type} {p : Production Expr → Production α} {answer : α → Answer}
    (hread : Readable tokens) (hmarked : Marked tokens) (hpos : pos < tokens.length)
    (hcall : ∀ inner c, performWith inner c call = c.atToken (answered answer (c.run (p inner))))
    (hmethod : Method (p Grammar.expr))
    (hlocal : ∀ n inner, Local n Grammar.expr inner → Local n (p Grammar.expr) (p inner))
    (hrule : ∀ rule, call = .read rule → ∀ ts, Readable ts → Orderly 1 ts (p Grammar.expr ts)) :
    ((Cursor.mk tokens pos).exchange call).Safe tokens := by
  have hsettles : Settles tokens pos call
      (answered answer ((Cursor.mk tokens pos).run (p Grammar.expr))).1
      ((Cursor.mk tokens pos).run (p Grammar.expr)).2.pos := by
    intro n inner more hinner hn
    rw [hcall, atToken_append hpos,
      Grammar.run_of_local hmethod hread hmarked hpos (hlocal n inner hinner) more hn]
    rfl
  obtain ⟨hforward, hinRange, hreport, -⟩ := Grammar.runsInRange hread hmarked hmethod hpos
  have hprogress (rule : Rule) (hr : call = .read rule) := pos_lt_of_orderly hpos
    (hrule rule hr _ (hread.of_suffix (List.drop_suffix pos tokens)))
  generalize (Cursor.mk tokens pos).run (p Grammar.expr) = result at *
  obtain ⟨outcome, c'⟩ := result
  refine safe_of_settles hpos hsettles hforward hinRange ?_ ?_
  · intro f hf
    cases outcome with
    | ok a => cases hf
    | error err =>
      obtain ⟨hparse, cause, t, rfl, ht⟩ := hreport err rfl
      cases hf
      exact ⟨_, t, rfl, hparse, ht, rfl, rfl⟩
  · intro rule hr hok
    cases outcome with
    | ok a => exact hprogress rule hr rfl
    | error err => cases hok

theorem peek_safe (hpos : pos < tokens.length) (offset : Nat) :
    ((Cursor.mk tokens pos).exchange (.peek offset)).Safe tokens := by
  obtain ⟨t, ht⟩ := Option.isSome_iff_exists.1 (Grammar.peek?_isSome hpos offset)
  have hcall : ∀ inner, (Cursor.mk tokens pos).performWith inner (.peek offset) =
      (.ok (.token t), ⟨tokens, pos⟩) := by
    intro inner
    rw [performWith, ht]
    rfl
  rw [exchange, perform, hcall]
  exact ⟨⟨rfl, hpos⟩, ⟨rfl, hpos⟩, Nat.le_refl _, nofun, nofun, fun n _ => hcall _,
    fun h => absurd rfl (h offset)⟩

theorem exchange_safe (hread : Readable tokens) (hmarked : Marked tokens)
    (hpos : pos < tokens.length) (call : Call) :
    ((Cursor.mk tokens pos).exchange call).Safe tokens := by
  have hstay : ∀ more, id (Cursor.mk (tokens ++ more) pos) = ⟨tokens ++ more, pos⟩ := fun _ => rfl
  cases call with
  | current =>
    exact safe_of_look hpos .token (fun _ _ => rfl) hstay (Nat.le_refl _) hpos nofun
  | isAt symbol =>
    exact safe_of_look hpos (fun t => .truth (t.isSymbol symbol)) (fun _ _ => rfl) hstay
      (Nat.le_refl _) hpos nofun
  | isAtKind title =>
    exact safe_of_look hpos (fun t => .truth (t.kind.title == title)) (fun _ _ => rfl)
      hstay (Nat.le_refl _) hpos nofun
  | advance =>
    exact safe_of_look hpos .token (fun _ _ => rfl) (advance_append hpos)
      (pos_le_advance ⟨tokens, pos⟩) (Grammar.advance_inRange hmarked hpos) nofun
  | peek offset => exact peek_safe hpos offset
  | expect symbol =>
    exact safe_of_method hread hmarked hpos (p := fun _ => Grammar.expect symbol) (fun _ _ => rfl)
      (.expect symbol) (fun n _ _ => Grammar.expect_local symbol n) nofun
  | expectEnd =>
    exact safe_of_method hread hmarked hpos (p := fun _ => Grammar.expectEnd) (fun _ _ => rfl)
      .expectEnd (fun n _ _ => Grammar.expectEnd_local n) nofun
  | read rule =>
    exact safe_of_method hread hmarked hpos (p := fun inner => rule.production inner)
      (fun _ _ => rfl) rule.method (fun _ _ h => rule.production_local h)
      fun _ _ _ hts => rule.orderly hts
  | readArguments =>
    exact safe_of_method hread hmarked hpos (p := Grammar.argList) (fun _ _ => rfl) .argList
      (fun _ _ h => Grammar.argList_local h) nofun

end Steps

/-! ## What a driver can do -/

theorem calls_exchanges (c : Cursor) (calls : List Call) :
    (c.exchanges calls).map (·.call) = calls := by
  induction calls generalizing c with
  | nil => rfl
  | cons call calls ih =>
    rw [exchanges, List.map_cons, ih]
    rfl

theorem exchanges_safe {tokens : List Token} (hread : Readable tokens) (hmarked : Marked tokens)
    {c : Cursor} (hc : c.Within tokens) (calls : List Call) :
    (∀ x ∈ c.exchanges calls, x.Safe tokens) ∧ (c.places calls).Pairwise (· ≤ ·) := by
  rw [← List.isChain_iff_pairwise]
  induction calls generalizing c with
  | nil => exact ⟨List.forall_mem_nil _, .singleton _⟩
  | cons call calls ih =>
    obtain ⟨rfl, hpos⟩ := hc
    have hsafe := exchange_safe hread hmarked hpos call
    -- also after an error the cursor is at a token, from which the other calls start
    obtain ⟨hmore, hplaces⟩ := ih hsafe.after
    exact ⟨List.forall_mem_cons.2 ⟨hsafe, hmore⟩, .cons_cons hsafe.forward hplaces⟩

/-- A cursor over the tokens of a text is safe whatever calls are made on it, in any order and also
    after errors. Every call is answered or refused, and the place never goes back. -/
theorem driving_safe {source : String} {tokens : List Token} (h : tokenize source = .ok tokens)
    (calls : List Call) :
    ((ofTokens tokens).exchanges calls).map (·.call) = calls ∧
      (∀ x ∈ (ofTokens tokens).exchanges calls, x.Safe tokens) ∧
      ((ofTokens tokens).places calls).Pairwise (· ≤ ·) := by
  have hmarked := Grammar.marked_of_tokens h
  have hpos : 0 < tokens.length := by
    obtain ⟨ts, mark, rfl, -⟩ := hmarked
    simp
  exact ⟨calls_exchanges _ _, exchanges_safe (Grammar.readable_of_tokens h) hmarked ⟨rfl, hpos⟩ _⟩

/-- After an error in a parenthesis the rest of it can be read as arguments; at the end of the text
    a driver can go on asking. -/
theorem driving_safe_resumed :
    let tokens : List Token := [⟨.name, "y", 1, 1⟩, ⟨.symbol, "*", 1, 2⟩, ⟨.symbol, "(", 1, 3⟩,
      ⟨.name, "x", 1, 4⟩, ⟨.name, "z", 1, 6⟩, ⟨.symbol, ",", 1, 7⟩, ⟨.name, "w", 1, 8⟩,
      ⟨.symbol, ")", 1, 9⟩, ⟨.endOfInput, "", 1, 10⟩]
    let calls : List Call := [.read .program, .readArguments, .isAt ")", .expect ")", .read .atom,
      .advance, .peek 3, .expectEnd]
    tokenize "y*(x z,w)" = .ok tokens ∧
      ((ofTokens tokens).exchanges calls).map (·.call) = calls ∧
      (∀ x ∈ (ofTokens tokens).exchanges calls, x.Safe tokens) ∧
      ((ofTokens tokens).places calls).Pairwise (· ≤ ·) ∧
      (ofTokens tokens).places calls = [0, 4, 7, 7, 8, 8, 8, 8, 8] := by
  intro tokens calls
  have h : tokenize "y*(x z,w)" = .ok tokens := by cbv
  have hplaces : (ofTokens tokens).places calls = [0, 4, 7, 7, 8, 8, 8, 8, 8] := by decide
  obtain ⟨hcalls, hsafe, hsorted⟩ := driving_safe h calls
  exact ⟨h, hcalls, hsafe, hsorted, hplaces⟩

end Cursor

end ArithCompiler

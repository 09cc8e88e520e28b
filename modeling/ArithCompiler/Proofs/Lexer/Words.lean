import ArithCompiler.Proofs.Lexer.Numeral

set_option autoImplicit false

/-!
# Words

The texts that stand for tokens, and their agreement with the lexer: every token has such a text,
and such a text is read as one token wherever it does not run into what follows.
-/

namespace ArithCompiler

/-- A letter or an underscore, and then letters, digits and underscores. -/
def IsIdentifier (text : String) : Prop :=
  ∃ c cs, text.toList = c :: cs ∧ Lexer.isNameStart c ∧ ∀ d ∈ cs, Lexer.isNameChar d

namespace Lexer
open Number (isDigit)

inductive Word : TokenKind → List Char → Prop
  | number {cs : List Char} : Numeral cs → Word .number cs
  | name {c : Char} {cs : List Char} : isNameStart c → (∀ d ∈ cs, isNameChar d) →
      Word .name (c :: cs)
  | symbol {c : Char} : c ∈ symbols → Word .symbol [c]

theorem Numeral.character {v : List Char} (h : Numeral v) :
    ∀ c ∈ v, isNameChar c ∨ c ∈ ['.', '+', '-'] := by
  obtain ⟨m, x, hm, hx, rfl⟩ := h
  have hdigit : ∀ d, isDigit d → isNameChar d := fun d hd => by simp [isNameChar, hd]
  intro c hc
  rcases List.mem_append.1 hc with hc | hc
  · rcases hm.digit_or_point c hc with hd | rfl
    · exact .inl (hdigit c hd)
    · exact .inr List.mem_cons_self
  · cases hx with
    | none => cases hc
    | some he hs hds =>
      rcases List.mem_cons.1 hc with rfl | hc
      · rcases he with rfl | rfl <;> exact .inl (by decide)
      · rcases List.mem_append.1 hc with hc | hc
        · rcases hs with rfl | rfl | rfl
          · cases hc
          all_goals
            obtain rfl := List.mem_singleton.1 hc
            exact .inr (by decide)
        · exact .inl (hdigit c (hds c hc))

theorem forall_isNameChar {c : Char} {cs : List Char} (hc : isNameStart c)
    (hcs : ∀ d ∈ cs, isNameChar d) : ∀ d ∈ c :: cs, isNameChar d :=
  List.forall_mem_cons.2 ⟨by simp [isNameChar, hc], hcs⟩

theorem Word.character {kind : TokenKind} {v : List Char} (h : Word kind v) :
    ∀ c ∈ v, isNameChar c ∨ c ∈ '.' :: symbols := by
  intro c hc
  cases h with
  | symbol hs =>
    obtain rfl := List.mem_singleton.1 hc
    exact .inr (List.mem_cons_of_mem _ hs)
  | name hstart hmore => exact .inl (forall_isNameChar hstart hmore c hc)
  | number hn =>
    have hsubset : ['.', '+', '-'] ⊆ '.' :: symbols := by decide
    exact (hn.character c hc).imp_right fun hmem => hsubset hmem

/-- No number and no name before this place goes on here. -/
def Delimited (rest : List Char) : Prop := Stops (fun c => isNameChar c || c == '.') rest

theorem Stops.imp {p q : Char → Bool} {cs : List Char} (h : Stops q cs)
    (hpq : ∀ c, p c → q c) : Stops p cs := by
  intro c hc
  rw [Bool.eq_false_iff]
  intro hp
  exact absurd (hpq c hp) (by simp [h c hc])

theorem Stops.append {p : Char → Bool} {cs rest : List Char} (h : Stops p cs)
    (hrest : Stops p rest) : Stops p (cs ++ rest) := by
  cases cs with
  | nil => exact hrest
  | cons c cs => exact stops_cons (h c rfl) _

theorem Delimited.isDigit {rest : List Char} (h : Delimited rest) : Stops isDigit rest :=
  h.imp fun c hc => by simp [isNameChar, hc]

theorem Delimited.point {rest : List Char} (h : Delimited rest) : Stops (· == '.') rest :=
  h.imp fun c hc => by simp [hc]

theorem Delimited.isNameChar {rest : List Char} (h : Delimited rest) : Stops isNameChar rest :=
  h.imp fun c hc => by simp [hc]

theorem Delimited.exponent {rest : List Char} (h : Delimited rest) :
    Stops (fun c => c == 'e' || c == 'E') rest := by
  refine h.imp fun c hc => ?_
  simp only [Bool.or_eq_true, beq_iff_eq] at hc
  rcases hc with rfl | rfl <;> decide

theorem delimited_nil : Delimited [] := stops_nil _

theorem delimited_cons {c : Char} (h : (Lexer.isNameChar c || c == '.') = false)
    (rest : List Char) : Delimited (c :: rest) := stops_cons h rest

theorem delimited_of_symbol {c : Char} (h : c ∈ symbols) (rest : List Char) :
    Delimited (c :: rest) := by
  refine delimited_cons ?_ rest
  simp only [symbols, List.mem_cons, List.not_mem_nil, or_false] at h
  rcases h with rfl | rfl | rfl | rfl | rfl | rfl | rfl <;> decide

/-! ## The lexer makes words -/

theorem word_of_lexeme {c : Char} {rest text : List Char} {kind : TokenKind}
    (h : lexeme c rest = .token kind text) : Word kind text ∧ ∃ tail, c :: rest = text ++ tail := by
  unfold lexeme at h
  split at h
  · rename_i hstart
    dsimp only at h
    split at h
    · rename_i power hpower
      cases h
      obtain ⟨hx, tail, htail⟩ := power_of_exponent? hpower
      refine ⟨.number ⟨_, _, mantissa_of_startsNumber hstart, hx, rfl⟩, tail, ?_⟩
      rw [List.append_assoc, ← htail, mantissa_append_drop]
    · cases h
  · split at h
    · rename_i hstart
      cases h
      have hc : Lexer.isNameChar c := by simp [Lexer.isNameChar, hstart]
      have htake : (c :: rest).takeWhile Lexer.isNameChar = c :: rest.takeWhile Lexer.isNameChar :=
        List.takeWhile_cons_of_pos hc
      refine ⟨?_, _, List.takeWhile_append_dropWhile.symm⟩
      rw [htake]
      exact .name hstart of_mem_takeWhile
    · split at h
      · rename_i hsymbol
        cases h
        exact ⟨.symbol (by simpa using hsymbol), rest, rfl⟩
      · cases h

/-! ## Words are read as tokens -/

theorem startsNumber_of_mantissa {c : Char} {m rest : List Char} (h : Mantissa (c :: m)) :
    startsNumber c (m ++ rest) := by
  generalize hcs : c :: m = cs at h
  cases h with
  | whole hds hne =>
    subst hcs
    simp [startsNumber, hds c List.mem_cons_self]
  | @point ds fs hds hfs hne =>
    cases ds with
    | cons d ds =>
      cases hcs
      simp [startsNumber, hds c List.mem_cons_self]
    | nil =>
      cases hcs
      cases m with
      | nil => simp at hne
      | cons d fs => simp [startsNumber, hfs d List.mem_cons_self]

/-- The two functions that look for the end of a numeral find it where `m` and `x` end. -/
theorem lexeme_of_parts {c : Char} {m x rest : List Char} (hm : Mantissa (c :: m))
    (hmantissa : mantissa (c :: m ++ (x ++ rest)) = c :: m)
    (hpower : exponent? (x ++ rest) = some x) :
    lexeme c (m ++ x ++ rest) = .token .number (c :: (m ++ x)) := by
  rw [List.cons_append, ← List.append_assoc] at hmantissa
  have hdrop : (c :: (m ++ x ++ rest)).drop (c :: m).length = x ++ rest := by
    rw [List.append_assoc, ← List.cons_append]
    exact List.drop_left
  have hstart : startsNumber c (m ++ x ++ rest) := by
    rw [List.append_assoc]
    exact startsNumber_of_mantissa hm
  simp only [lexeme, hstart, if_true, hmantissa, hdrop, hpower, List.cons_append]

theorem mantissa_append_power {m x rest : List Char} (hm : Mantissa m) (hx : Power x)
    (hd : x = [] → Stops isDigit rest) (hp : x = [] → '.' ∈ m ∨ Stops (· == '.') rest) :
    mantissa (m ++ (x ++ rest)) = m := by
  cases hx with
  | none => exact mantissa_append hm (hd rfl) (hp rfl)
  | some he =>
    refine mantissa_append hm ?_ (.inr ?_)
    all_goals
      rcases he with rfl | rfl
      all_goals exact stops_cons (by decide) _

theorem lexeme_of_numeral {c : Char} {cs rest : List Char} (h : Numeral (c :: cs))
    (hrest : Delimited rest) : lexeme c (cs ++ rest) = .token .number (c :: cs) := by
  obtain ⟨m, x, hm, hx, heq⟩ := h
  cases m with
  | nil => exact absurd rfl hm.ne_nil
  | cons d m =>
    obtain ⟨rfl, rfl⟩ : c = d ∧ cs = m ++ x := by simpa using heq
    exact lexeme_of_parts hm
      (mantissa_append_power hm hx (fun _ => hrest.isDigit) fun _ => .inr hrest.point)
      (exponent?_append hx (fun _ => hrest.exponent) fun _ => hrest.isDigit)

theorem not_startsNumber {c : Char} (hd : isDigit c = false) (hp : c ≠ '.') (rest : List Char) :
    startsNumber c rest = false := by
  simp [startsNumber, hd, hp]

theorem isDigit_eq_false_of_isNameStart {c : Char} (h : isNameStart c) : isDigit c = false := by
  simp only [isNameStart, Bool.or_eq_true, Bool.and_eq_true, decide_eq_true_eq, beq_iff_eq,
    Char.le_def] at h
  simp only [Number.isDigit, Bool.and_eq_false_iff, decide_eq_false_iff_not, Char.le_def]
  rcases h with (⟨hl, -⟩ | ⟨hl, -⟩) | rfl
  · right
    intro hr
    exact absurd (UInt32.le_trans hl hr) (by decide)
  · right
    intro hr
    exact absurd (UInt32.le_trans hl hr) (by decide)
  · right
    decide

theorem lexeme_of_name {c : Char} {cs rest : List Char} (hc : isNameStart c)
    (hcs : ∀ d ∈ cs, Lexer.isNameChar d) (hrest : Stops Lexer.isNameChar rest) :
    lexeme c (cs ++ rest) = .token .name (c :: cs) := by
  have hpoint : c ≠ '.' := by
    rintro rfl
    exact absurd hc (by decide)
  have htake : (c :: (cs ++ rest)).takeWhile Lexer.isNameChar = c :: cs :=
    takeWhile_of_stops (forall_isNameChar hc hcs) hrest
  simp only [lexeme, not_startsNumber (isDigit_eq_false_of_isNameStart hc) hpoint, hc, htake,
    Bool.false_eq_true, if_false, if_true]

theorem lexeme_of_symbol {c : Char} (hc : c ∈ symbols) (rest : List Char) :
    lexeme c rest = .token .symbol [c] := by
  have hclass : isDigit c = false ∧ c ≠ '.' ∧ isNameStart c = false := by
    simp only [symbols, List.mem_cons, List.not_mem_nil, or_false] at hc
    rcases hc with rfl | rfl | rfl | rfl | rfl | rfl | rfl <;> decide
  obtain ⟨hd, hp, hn⟩ := hclass
  simp [lexeme, not_startsNumber hd hp, hn, hc]

theorem lexeme_of_word {kind : TokenKind} {c : Char} {cs rest : List Char}
    (h : Word kind (c :: cs)) (hrest : kind ≠ .symbol → Delimited rest) :
    lexeme c (cs ++ rest) = .token kind (c :: cs) := by
  cases h with
  | number hn => exact lexeme_of_numeral hn (hrest (by decide))
  | name hc hcs => exact lexeme_of_name hc hcs (hrest (by decide)).isNameChar
  | symbol hc => exact lexeme_of_symbol hc rest

end Lexer

end ArithCompiler

import ArithCompiler.Proofs.Lexer.Words

set_option autoImplicit false

/-!
# Tokens as long as they can be

What may be cut off the beginning of a text as a token, said without the functions that do it: a
symbol, a name that does not go on, or the longest numeral, if it does not run into an exponent. The
lexer takes exactly these, and otherwise complains about an exponent or a character.
-/

namespace ArithCompiler.Lexer
open Number (isDigit)

/-! ## The longest numeral -/

def LongestNumeral (v rest : List Char) : Prop :=
  Numeral v ∧ ∀ v' rest', v ++ rest = v' ++ rest' → Numeral v' → v'.length ≤ v.length

def isExponentMark (c : Char) : Bool := c == 'e' || c == 'E'

theorem stops_dropWhile (p : Char → Bool) (cs : List Char) : Stops p (cs.dropWhile p) := by
  intro c hc
  have hhead := List.head?_dropWhile_not p cs
  rw [Option.mem_def.1 hc] at hhead
  simpa using hhead

theorem Mantissa.not_exponentMark {m : List Char} (h : Mantissa m) :
    ∀ c ∈ m, isExponentMark c = false := by
  intro c hc
  rw [Bool.eq_false_iff]
  intro hmark
  simp only [isExponentMark, Bool.or_eq_true, beq_iff_eq] at hmark
  rcases h.digit_or_point c hc with hd | rfl
  · rcases hmark with rfl | rfl <;> exact absurd hd (by decide)
  · rcases hmark with hmark | hmark <;> exact absurd hmark (by decide)

theorem Mantissa.digit {m : List Char} {d : Char} (h : Mantissa m) (hd : isDigit d) :
    Mantissa (m ++ [d]) := by
  have hmore : ∀ {ds : List Char}, (∀ c ∈ ds, isDigit c) → ∀ c ∈ ds ++ [d], isDigit c := by
    intro ds hds c hc
    rcases List.mem_append.1 hc with hc | hc
    · exact hds c hc
    · obtain rfl := List.mem_singleton.1 hc
      exact hd
  cases h with
  | whole hds => exact .whole (hmore hds) (by simp)
  | point hds hfs =>
    rw [List.append_assoc, List.cons_append]
    exact .point hds (hmore hfs) (.inr (by simp))

theorem Mantissa.point_after {m : List Char} (h : Mantissa m) (hp : '.' ∉ m) :
    Mantissa (m ++ ['.']) := by
  cases h with
  | whole hds hne => exact .point hds (by simp) (.inl hne)
  | point => exact absurd (by simp) hp

theorem Power.digit {x : List Char} {d : Char} (h : Power x) (hx : x ≠ []) (hd : isDigit d) :
    Power (x ++ [d]) := by
  cases h with
  | none => exact absurd rfl hx
  | @some e sign ds he hs hds =>
    rw [List.cons_append, List.append_assoc]
    refine .some he hs (fun c hc => ?_) (by simp)
    rcases List.mem_append.1 hc with hc | hc
    · exact hds c hc
    · obtain rfl := List.mem_singleton.1 hc
      exact hd

theorem prefix_mantissa {m : List Char} (h : Mantissa m) (tail : List Char) :
    m <+: mantissa (m ++ tail) := by
  cases h with
  | whole hds =>
    have htake : m <+: (m ++ tail).takeWhile isDigit := by
      rw [List.takeWhile_append_of_pos hds]
      exact List.prefix_append m _
    unfold mantissa
    split
    · exact htake.trans (List.prefix_append _ _)
    · exact htake
  | @point ds fs hds hfs =>
    have hstop : Stops isDigit ('.' :: (fs ++ tail)) := stops_cons (by decide) _
    rw [mantissa, List.append_assoc, List.cons_append, takeWhile_of_stops hds hstop,
      dropWhile_of_stops hds hstop]
    simp only [List.takeWhile_append_of_pos hfs]
    exact ⟨tail.takeWhile isDigit, by simp⟩

theorem prefix_exponent? {x : List Char} (h : Power x) (hx : x ≠ []) (tail : List Char) :
    ∃ y, exponent? (x ++ tail) = some y ∧ x <+: y := by
  cases h with
  | none => exact absurd rfl hx
  | @some e sign ds he hs hds hne =>
    have hmark : (e == 'e' || e == 'E') = true := by simpa using he
    have hsign := sign_append hs hds hne tail
    have hdigits : ((sign ++ ds ++ tail).drop sign.length).takeWhile isDigit =
        ds ++ tail.takeWhile isDigit := by
      rw [List.append_assoc, List.drop_left, List.takeWhile_append_of_pos hds]
    refine ⟨e :: sign ++ (ds ++ tail.takeWhile isDigit), ?_, tail.takeWhile isDigit, by simp⟩
    simp only [List.cons_append, exponent?, hmark, if_true, hsign, hdigits]
    simp [hne]

theorem Power.exponentMark {e : Char} {x : List Char} (h : Power (e :: x)) :
    isExponentMark e = true := by
  cases h with
  | some he => simpa [isExponentMark] using he

theorem longest_of_cut {m x tail : List Char} (hm : Mantissa m)
    (hcut : mantissa (m ++ (x ++ tail)) = m) (hx : exponent? (x ++ tail) = some x) :
    LongestNumeral (m ++ x) tail := by
  refine ⟨⟨m, x, hm, (power_of_exponent? hx).1, rfl⟩, ?_⟩
  rintro v' rest' heq ⟨m', x', hm', hx', rfl⟩
  rw [List.append_assoc, List.append_assoc] at heq
  -- the other mantissa is a beginning of `m`, and before an exponent it is all of it
  obtain ⟨more, hmore⟩ := prefix_mantissa hm' (x' ++ rest')
  rw [← heq, hcut] at hmore
  cases x' with
  | nil =>
    have hlen := congrArg List.length hmore
    simp only [List.length_append, List.length_nil] at hlen ⊢
    omega
  | cons e x' =>
    rw [← hmore, List.append_assoc] at heq
    have hrest := List.append_cancel_left heq
    cases more with
    | nil =>
      rw [List.append_nil] at hmore
      obtain ⟨y, hy, hprefix⟩ := prefix_exponent? hx' (by simp) rest'
      rw [← hrest, List.nil_append, hx] at hy
      obtain rfl := Option.some.inj hy
      have hlen := hprefix.length_le
      simp only [List.length_append, hmore]
      omega
    | cons d more =>
      obtain rfl : d = e := (List.cons.inj hrest).1
      have hnot := hm.not_exponentMark d (hmore ▸ by simp)
      exact absurd hx'.exponentMark (by simp [hnot])

theorem LongestNumeral.stops {v rest : List Char} {p : Char → Bool} (h : LongestNumeral v rest)
    (hp : ∀ c, p c → Numeral (v ++ [c])) : Stops p rest := by
  cases rest with
  | nil => exact stops_nil p
  | cons c rest =>
    refine stops_cons ?_ rest
    rw [Bool.eq_false_iff]
    intro hc
    have hlen := h.2 (v ++ [c]) rest (by simp) (hp c hc)
    simp only [List.length_append, List.length_singleton] at hlen
    omega

/-! ## What may stand behind a numeral -/

/-- A numeral of the mantissa `m` and the power `x` does not go on with `rest`, and does not run into
    the mark of an exponent there. -/
structure EndsNumeral (m x rest : List Char) : Prop where
  digit : Stops isDigit rest
  point : x = [] → '.' ∈ m ∨ Stops (· == '.') rest
  mark : x = [] → Stops isExponentMark rest

section Ends

variable {m x rest : List Char}

theorem Power.eq_nil_of_mantissa (hx : Power x) (hm : Mantissa (m ++ x)) : x = [] := by
  cases x with
  | nil => rfl
  | cons e x => exact absurd hx.exponentMark (by simp [hm.not_exponentMark e (by simp)])

theorem LongestNumeral.ends (hm : Mantissa m) (hx : Power x) (h : LongestNumeral (m ++ x) rest)
    (hmark : Mantissa (m ++ x) → Stops isExponentMark rest) : EndsNumeral m x rest where
  digit := by
    apply h.stops
    intro d hd
    by_cases hnil : x = []
    · subst hnil
      rw [List.append_nil]
      exact ⟨_, [], hm.digit hd, .none, (List.append_nil _).symm⟩
    · exact ⟨m, _, hm, hx.digit hnil hd, List.append_assoc m x [d]⟩
  point := by
    rintro rfl
    by_cases hp : '.' ∈ m
    · exact .inl hp
    · refine .inr (h.stops fun d hd => ?_)
      obtain rfl : d = '.' := by simpa using hd
      rw [List.append_nil]
      exact ⟨_, [], hm.point_after hp, .none, (List.append_nil _).symm⟩
  mark := by
    rintro rfl
    exact hmark (by simpa using hm)

namespace EndsNumeral

theorem mantissa_eq (h : EndsNumeral m x rest) (hm : Mantissa m) (hx : Power x) :
    mantissa (m ++ (x ++ rest)) = m :=
  mantissa_append_power hm hx (fun _ => h.digit) h.point

theorem exponent?_eq (h : EndsNumeral m x rest) (hx : Power x) : exponent? (x ++ rest) = some x :=
  exponent?_append hx h.mark fun _ => h.digit

theorem longest (h : EndsNumeral m x rest) (hm : Mantissa m) (hx : Power x) :
    LongestNumeral (m ++ x) rest :=
  longest_of_cut hm (h.mantissa_eq hm hx) (h.exponent?_eq hx)

theorem append {more : List Char} (h : EndsNumeral m x rest) (hmore : Delimited more) :
    EndsNumeral m x (rest ++ more) where
  digit := h.digit.append hmore.isDigit
  point := fun hnil => (h.point hnil).imp_right fun hp => hp.append hmore.point
  mark := fun hnil => (h.mark hnil).append hmore.exponent

end EndsNumeral

end Ends

/-! ## Tokens that may be cut off -/

/-- The text `v` is a token of the kind and may be cut off before `rest`. -/
inductive Admissible : TokenKind → List Char → List Char → Prop
  | symbol {c : Char} {rest : List Char} : c ∈ symbols → Admissible .symbol [c] rest
  | name {c : Char} {cs rest : List Char} : isNameStart c → (∀ d ∈ cs, isNameChar d) →
      Stops isNameChar rest → Admissible .name (c :: cs) rest
  /-- A number that has no exponent does not run into one. -/
  | number {v rest : List Char} : LongestNumeral v rest →
      (Mantissa v → Stops isExponentMark rest) → Admissible .number v rest

theorem Admissible.exists_cons {kind : TokenKind} {v rest : List Char}
    (h : Admissible kind v rest) : ∃ c cs, v = c :: cs := by
  cases h with
  | symbol => exact ⟨_, [], rfl⟩
  | name => exact ⟨_, _, rfl⟩
  | number hlongest =>
    obtain ⟨m, x, hm, -, rfl⟩ := hlongest.1
    exact List.exists_cons_of_ne_nil fun hnil => hm.ne_nil (List.append_eq_nil_iff.1 hnil).1

theorem Admissible.word {kind : TokenKind} {v rest : List Char} (h : Admissible kind v rest) :
    Word kind v := by
  cases h with
  | symbol hc => exact .symbol hc
  | name hc hcs => exact .name hc hcs
  | number hlongest => exact .number hlongest.1

theorem Admissible.of_append {kind : TokenKind} {v rest more : List Char}
    (h : Admissible kind v (rest ++ more)) : Admissible kind v rest := by
  cases h with
  | symbol hc => exact .symbol hc
  | name hc hcs hrest => exact .name hc hcs hrest.of_append
  | number hlongest hmark =>
    refine .number ⟨hlongest.1, fun v' rest' heq hv' => ?_⟩ fun hm => (hmark hm).of_append
    refine hlongest.2 v' (rest' ++ more) ?_ hv'
    rw [← List.append_assoc, heq, List.append_assoc]

theorem Admissible.append {kind : TokenKind} {v rest more : List Char}
    (h : Admissible kind v rest) (hmore : Delimited more) : Admissible kind v (rest ++ more) := by
  cases h with
  | symbol hc => exact .symbol hc
  | name hc hcs hrest => exact .name hc hcs (hrest.append hmore.isNameChar)
  | number hlongest hmark =>
    obtain ⟨m, x, hm, hx, rfl⟩ := hlongest.1
    have hends := (hlongest.ends hm hx hmark).append hmore
    refine .number (hends.longest hm hx) fun hmantissa => ?_
    exact hends.mark (hx.eq_nil_of_mantissa hmantissa)

/-- A mantissa at the beginning runs into the mark of an exponent that does not follow. -/
def DanglingExponent (cs : List Char) : Prop :=
  ∃ m e rest, cs = m ++ e :: rest ∧ Mantissa m ∧ isExponentMark e = true ∧
    ∀ x tail, e :: rest = x ++ tail → Power x → x = []

theorem stops_of_exponent? {tail : List Char} (h : exponent? tail = some []) :
    Stops isExponentMark tail := by
  cases tail with
  | nil => exact stops_nil _
  | cons c tail =>
    refine stops_cons ?_ tail
    rw [exponent?] at h
    split at h
    · dsimp only at h
      split at h
      · cases h
      · cases h
    · rename_i hc
      simpa [isExponentMark] using hc

theorem admissible_of_lexeme {c : Char} {rest v : List Char} {kind : TokenKind}
    (h : lexeme c rest = .token kind v) :
    ∃ tail, c :: rest = v ++ tail ∧ Admissible kind v tail := by
  unfold lexeme at h
  split at h
  · rename_i hstart
    have hm := mantissa_of_startsNumber hstart
    have hsplit := mantissa_append_drop (c :: rest)
    dsimp only at h
    split at h
    · rename_i x hx
      cases h
      obtain ⟨-, tail, htail⟩ := power_of_exponent? hx
      rw [htail] at hsplit hx
      have hcut : mantissa (mantissa (c :: rest) ++ (x ++ tail)) = mantissa (c :: rest) := by
        rw [hsplit]
      refine ⟨tail, by rw [List.append_assoc, hsplit], .number (longest_of_cut hm hcut hx) ?_⟩
      intro hmantissa
      obtain rfl := (power_of_exponent? hx).1.eq_nil_of_mantissa hmantissa
      exact stops_of_exponent? hx
    · cases h
  · split at h
    · rename_i hstart
      cases h
      have hc : isNameChar c := by simp [isNameChar, hstart]
      refine ⟨_, List.takeWhile_append_dropWhile.symm, ?_⟩
      rw [List.takeWhile_cons_of_pos hc]
      exact .name hstart of_mem_takeWhile (stops_dropWhile _ _)
    · split at h
      · rename_i hsymbol
        cases h
        exact ⟨rest, rfl, .symbol (by simpa using hsymbol)⟩
      · cases h

theorem lexeme_of_admissible {c : Char} {cs rest : List Char} {kind : TokenKind}
    (h : Admissible kind (c :: cs) rest) : lexeme c (cs ++ rest) = .token kind (c :: cs) := by
  generalize hv : c :: cs = v at h
  cases h with
  | symbol hc =>
    obtain ⟨rfl, rfl⟩ := List.cons.inj hv
    exact lexeme_of_symbol hc rest
  | name hc hcs hrest =>
    obtain ⟨rfl, rfl⟩ := List.cons.inj hv
    exact lexeme_of_name hc hcs hrest
  | number hlongest hmark =>
    obtain ⟨m, x, hm, hx, rfl⟩ := hlongest.1
    have hends := hlongest.ends hm hx hmark
    have hcut := hends.mantissa_eq hm hx
    have hpower := hends.exponent?_eq hx
    cases m with
    | nil => exact absurd rfl hm.ne_nil
    | cons d m =>
      obtain ⟨rfl, rfl⟩ : c = d ∧ cs = m ++ x := by simpa using hv
      exact lexeme_of_parts hm hcut hpower

/-- The lexer complains about an exponent exactly where one dangles. -/
theorem lexeme_invalidExponent_iff {c : Char} {rest : List Char} :
    lexeme c rest = .unreadable .invalidExponent ↔ DanglingExponent (c :: rest) := by
  constructor
  · intro h
    unfold lexeme at h
    split at h
    · rename_i hstart
      have hsplit := mantissa_append_drop (c :: rest)
      dsimp only at h
      split at h
      · cases h
      · rename_i hnone
        generalize (c :: rest).drop (mantissa (c :: rest)).length = front at hsplit hnone
        cases front with
        | nil => cases hnone
        | cons e front =>
          have hmark : isExponentMark e = true := by
            rw [exponent?] at hnone
            split at hnone
            · assumption
            · cases hnone
          refine ⟨_, e, front, hsplit.symm, mantissa_of_startsNumber hstart, hmark, ?_⟩
          intro x tail heq hx
          by_cases hne : x = []
          · exact hne
          · obtain ⟨y, hy, -⟩ := prefix_exponent? hx hne tail
            rw [← heq, hnone] at hy
            cases hy
    · split at h
      · cases h
      · split at h <;> cases h
  · rintro ⟨m, e, front, heq, hm, hmark, hdangling⟩
    have hnone : exponent? (e :: front) = none := by
      rw [Option.eq_none_iff_forall_ne_some]
      intro x hx
      obtain ⟨hpower, tail, htail⟩ := power_of_exponent? hx
      obtain rfl := hdangling x tail htail hpower
      have hstop := stops_of_exponent? hx e rfl
      exact absurd hmark (by simp [hstop])
    have hchar : e = 'e' ∨ e = 'E' := by simpa [isExponentMark] using hmark
    have hcut : mantissa (c :: rest) = m := by
      rw [heq]
      refine mantissa_append hm ?_ (.inr ?_)
      all_goals
        rcases hchar with rfl | rfl
        all_goals exact stops_cons (by decide) _
    have hdrop : (c :: rest).drop m.length = e :: front := by
      rw [heq]
      exact List.drop_left
    have hstart : startsNumber c rest := by
      cases m with
      | nil => exact absurd rfl hm.ne_nil
      | cons d m =>
        obtain ⟨rfl, rfl⟩ : c = d ∧ rest = m ++ e :: front := by simpa using heq
        exact startsNumber_of_mantissa hm
    simp only [lexeme, hstart, if_true, hcut, hdrop, hnone]

theorem cause_of_lexeme {c : Char} {rest : List Char} {cause : LexicalCause}
    (h : lexeme c rest = .unreadable cause) :
    cause = .invalidExponent ∨ cause = .unexpectedCharacter c := by
  unfold lexeme at h
  split at h
  · dsimp only at h
    split at h
    · cases h
    · cases h
      exact .inl rfl
  · split at h
    · cases h
    · split at h
      · cases h
      · cases h
        exact .inr rfl

theorem lexeme_of_stuck {c : Char} {rest : List Char}
    (h : ∀ kind v tail, c :: rest = v ++ tail → ¬ Admissible kind v tail) :
    ∃ cause, lexeme c rest = .unreadable cause := by
  cases hlexeme : lexeme c rest with
  | unreadable cause => exact ⟨cause, rfl⟩
  | token kind v =>
    obtain ⟨tail, heq, hv⟩ := admissible_of_lexeme hlexeme
    exact absurd hv (h kind v tail heq)

end ArithCompiler.Lexer

import ArithCompiler.Token.Lexer

set_option autoImplicit false

/-!
# Numerals

The texts of numbers as a grammar of their own, and its agreement with the two functions that know
it: the lexer, which cuts the longest numeral off a text, and the reader of decimal numbers, which
takes exactly the numerals.
-/

namespace ArithCompiler.Lexer
open Number (isDigit)

/-! ## Runs of characters -/

def Stops (p : Char → Bool) (cs : List Char) : Prop := ∀ c ∈ cs.head?, p c = false

theorem stops_nil (p : Char → Bool) : Stops p [] := by simp [Stops]

theorem stops_cons {p : Char → Bool} {c : Char} (h : p c = false) (cs : List Char) :
    Stops p (c :: cs) := by simpa [Stops] using h

theorem Stops.of_append {p : Char → Bool} {cs ds : List Char} (h : Stops p (cs ++ ds)) :
    Stops p cs := by
  cases cs with
  | nil => exact stops_nil p
  | cons c cs => exact h

theorem takeWhile_of_stops {p : Char → Bool} {w rest : List Char} (hw : ∀ c ∈ w, p c)
    (hrest : Stops p rest) : (w ++ rest).takeWhile p = w := by
  rw [List.takeWhile_append_of_pos hw]
  cases rest with
  | nil => simp
  | cons c rest => simp [hrest c rfl]

theorem dropWhile_of_stops {p : Char → Bool} {w rest : List Char} (hw : ∀ c ∈ w, p c)
    (hrest : Stops p rest) : (w ++ rest).dropWhile p = rest := by
  rw [List.dropWhile_append_of_pos hw]
  cases rest with
  | nil => rfl
  | cons c rest => simp [hrest c rfl]

/-- A text is cut in one way only where the characters of a class end. -/
theorem append_inj_of_stops {p : Char → Bool} {w w' rest rest' : List Char} (hw : ∀ c ∈ w, p c)
    (hw' : ∀ c ∈ w', p c) (hrest : Stops p rest) (hrest' : Stops p rest')
    (h : w ++ rest = w' ++ rest') : w = w' ∧ rest = rest' := by
  have htake := congrArg (List.takeWhile p) h
  have hdrop := congrArg (List.dropWhile p) h
  rw [takeWhile_of_stops hw hrest, takeWhile_of_stops hw' hrest'] at htake
  rw [dropWhile_of_stops hw hrest, dropWhile_of_stops hw' hrest'] at hdrop
  exact ⟨htake, hdrop⟩

theorem of_mem_takeWhile {p : Char → Bool} {cs : List Char} : ∀ c ∈ cs.takeWhile p, p c := by
  exact List.all_eq_true.1 List.all_takeWhile

/-! ## The grammar of numerals -/

inductive Mantissa : List Char → Prop
  | whole {ds : List Char} : (∀ c ∈ ds, isDigit c) → ds ≠ [] → Mantissa ds
  | point {ds fs : List Char} : (∀ c ∈ ds, isDigit c) → (∀ c ∈ fs, isDigit c) →
      ds ≠ [] ∨ fs ≠ [] → Mantissa (ds ++ '.' :: fs)

inductive Power : List Char → Prop
  | none : Power []
  | some {e : Char} {sign ds : List Char} : e = 'e' ∨ e = 'E' →
      sign = [] ∨ sign = ['+'] ∨ sign = ['-'] → (∀ c ∈ ds, isDigit c) → ds ≠ [] →
      Power (e :: (sign ++ ds))

def Numeral (cs : List Char) : Prop := ∃ m x, Mantissa m ∧ Power x ∧ cs = m ++ x

theorem Mantissa.ne_nil {m : List Char} (h : Mantissa m) : m ≠ [] := by
  cases h with
  | whole _ hne => exact hne
  | point => simp

theorem Mantissa.digit_or_point {m : List Char} (h : Mantissa m) :
    ∀ c ∈ m, isDigit c ∨ c = '.' := by
  cases h with
  | whole hds => exact fun c hc => .inl (hds c hc)
  | point hds hfs =>
    intro c hc
    rcases List.mem_append.1 hc with hc | hc
    · exact .inl (hds c hc)
    · rcases List.mem_cons.1 hc with rfl | hc
      · exact .inr rfl
      · exact .inl (hfs c hc)

theorem Numeral.head {c : Char} {cs : List Char} (h : Numeral (c :: cs)) : isDigit c ∨ c = '.' := by
  obtain ⟨m, x, hm, -, heq⟩ := h
  obtain ⟨d, ds, rfl⟩ := List.exists_cons_of_ne_nil hm.ne_nil
  obtain ⟨rfl, -⟩ := List.cons.inj heq
  exact hm.digit_or_point c List.mem_cons_self

theorem Power.stops {x : List Char} (h : Power x) {p : Char → Bool} (he : p 'e' = false)
    (hE : p 'E' = false) : Stops p x := by
  cases h with
  | none => exact stops_nil p
  | some hc =>
    apply stops_cons
    rcases hc with rfl | rfl
    · exact he
    · exact hE

/-! ## Cutting off a numeral -/

theorem mantissa_append {m tail : List Char} (hm : Mantissa m) (hd : Stops isDigit tail)
    (hp : '.' ∈ m ∨ Stops (· == '.') tail) : mantissa (m ++ tail) = m := by
  cases hm with
  | whole hds hne =>
    have hpoint : Stops (· == '.') tail := by
      rcases hp with hmem | hstops
      · exact absurd (hds _ hmem) (by decide)
      · exact hstops
    rw [mantissa, takeWhile_of_stops hds hd, dropWhile_of_stops hds hd]
    split
    · exact absurd (hpoint '.' rfl) (by decide)
    · rfl
  | @point ds fs hds hfs hne =>
    have hdot : Stops isDigit ('.' :: (fs ++ tail)) := stops_cons (by decide) _
    rw [mantissa, List.append_assoc, List.cons_append, takeWhile_of_stops hds hdot,
      dropWhile_of_stops hds hdot]
    simp only [takeWhile_of_stops hfs hd]

theorem mantissa_prefix (cs : List Char) : mantissa cs <+: cs := by
  unfold mantissa
  split
  · rename_i rest hrest
    refine ⟨rest.dropWhile isDigit, ?_⟩
    rw [List.append_assoc, List.cons_append, List.takeWhile_append_dropWhile, ← hrest,
      List.takeWhile_append_dropWhile]
  · exact List.takeWhile_prefix isDigit

theorem mantissa_append_drop (cs : List Char) :
    mantissa cs ++ cs.drop (mantissa cs).length = cs :=
  List.prefix_iff_eq_append.1 <| mantissa_prefix cs

theorem mantissa_of_startsNumber {c : Char} {rest : List Char} (h : startsNumber c rest) :
    Mantissa (mantissa (c :: rest)) := by
  unfold mantissa
  by_cases hc : isDigit c
  · have hne : (c :: rest).takeWhile isDigit ≠ [] := by simp [hc]
    split
    · exact .point of_mem_takeWhile of_mem_takeWhile (.inl hne)
    · exact .whole of_mem_takeWhile hne
  · simp only [startsNumber, hc, Bool.false_or, Bool.and_eq_true, beq_iff_eq] at h
    obtain ⟨rfl, hnext⟩ := h
    simp only [hc, Bool.false_eq_true, not_false_eq_true, List.takeWhile_cons_of_neg,
      List.dropWhile_cons_of_neg]
    refine .point (by simp) of_mem_takeWhile (.inr ?_)
    cases rest with
    | nil => simp at hnext
    | cons d rest =>
      have hd : isDigit d := by simpa using hnext
      simp [hd]

theorem sign_append {sign ds : List Char} (hs : sign = [] ∨ sign = ['+'] ∨ sign = ['-'])
    (hds : ∀ c ∈ ds, isDigit c) (hne : ds ≠ []) (rest : List Char) :
    Lexer.sign (sign ++ ds ++ rest) = sign := by
  rcases hs with rfl | rfl | rfl
  · cases ds with
    | nil => exact absurd rfl hne
    | cons d ds =>
      have hd := hds d List.mem_cons_self
      have hplus : d ≠ '+' := by rintro rfl; exact absurd hd (by decide)
      have hminus : d ≠ '-' := by rintro rfl; exact absurd hd (by decide)
      simp [Lexer.sign, hplus, hminus]
  · rfl
  · rfl

theorem sign_cases (cs : List Char) :
    Lexer.sign cs = [] ∨ Lexer.sign cs = ['+'] ∨ Lexer.sign cs = ['-'] := by
  cases cs with
  | nil => exact .inl rfl
  | cons c cs =>
    by_cases hplus : c = '+'
    · subst hplus
      exact .inr (.inl rfl)
    · by_cases hminus : c = '-'
      · subst hminus
        exact .inr (.inr rfl)
      · exact .inl (by simp [Lexer.sign, hplus, hminus])

theorem sign_append_drop (cs : List Char) :
    Lexer.sign cs ++ cs.drop (Lexer.sign cs).length = cs := by
  cases cs with
  | nil => rfl
  | cons c cs =>
    by_cases h : c == '+' || c == '-' <;> simp [Lexer.sign, h]

theorem exponent?_append {x rest : List Char} (hx : Power x)
    (hnone : x = [] → Stops (fun c => c == 'e' || c == 'E') rest)
    (hd : x ≠ [] → Stops isDigit rest) : exponent? (x ++ rest) = some x := by
  cases hx with
  | none =>
    cases rest with
    | nil => rfl
    | cons c rest =>
      have hc := hnone rfl c rfl
      simp [exponent?, hc]
  | @some e sign ds he hs hds hne =>
    have hsign := sign_append hs hds hne rest
    have hdigits : ((sign ++ ds ++ rest).drop sign.length).takeWhile isDigit = ds := by
      rw [List.append_assoc, List.drop_left, takeWhile_of_stops hds (hd (by simp))]
    have hec : (e == 'e' || e == 'E') = true := by simpa using he
    simp only [List.cons_append, exponent?, hec, if_true, hsign, hdigits]
    simp [hne]

theorem power_of_exponent? {cs x : List Char} (h : exponent? cs = some x) :
    Power x ∧ ∃ tail, cs = x ++ tail := by
  cases cs with
  | nil =>
    cases h
    exact ⟨.none, [], rfl⟩
  | cons c cs =>
    rw [exponent?] at h
    split at h
    · rename_i hc
      simp only [Bool.or_eq_true, beq_iff_eq] at hc
      dsimp only at h
      split at h
      · cases h
      · rename_i hne
        cases h
        refine ⟨.some hc (sign_cases cs) of_mem_takeWhile (by simpa using hne), ?_⟩
        refine ⟨(cs.drop (Lexer.sign cs).length).dropWhile isDigit, ?_⟩
        rw [List.cons_append, List.cons_append, List.append_assoc,
          List.takeWhile_append_dropWhile, sign_append_drop]
    · cases h
      exact ⟨.none, _, rfl⟩

/-! ## Reading a numeral -/

theorem power_of_digits {e : Char} (sign : List Char) {ds : List Char}
    (he : (e == 'e' || e == 'E') = true) (hs : sign = [] ∨ sign = ['+'] ∨ sign = ['-'])
    (h : (decide (ds ≠ []) && ds.all isDigit) = true) :
    Power (e :: (sign ++ ds)) := by
  simp only [Bool.and_eq_true, decide_eq_true_eq] at h
  exact .some (by simpa using he) hs (List.all_eq_true.1 h.2) h.1

theorem power_iff_exponent? {x : List Char} : Power x ↔ (Number.exponent? x).isSome := by
  constructor
  · intro h
    cases h with
    | none => rfl
    | @some e sign ds he hs hds hne =>
      have hec : (e == 'e' || e == 'E') = true := by simpa using he
      have hall : (decide (ds ≠ []) && ds.all isDigit) = true := by
        simp [hne, List.all_eq_true.2 hds]
      rcases hs with rfl | rfl | rfl
      · simp only [Number.exponent?, hec, List.nil_append, if_true]
        split
        · exact absurd (hds '-' List.mem_cons_self) (by decide)
        · exact absurd (hds '+' List.mem_cons_self) (by decide)
        · rw [if_pos hall]
          rfl
      · simp only [Number.exponent?, hec, List.cons_append, List.nil_append, hall, if_true]
        rfl
      · simp only [Number.exponent?, hec, List.cons_append, List.nil_append, hall, if_true]
        rfl
  · intro h
    unfold Number.exponent? at h
    split at h
    · exact .none
    · rename_i e cs
      split at h
      · rename_i he
        split at h
        · rename_i ds
          split at h
          · rename_i hds
            exact power_of_digits ['-'] he (by simp) hds
          · cases h
        · rename_i ds
          split at h
          · rename_i hds
            exact power_of_digits ['+'] he (by simp) hds
          · cases h
        · split at h
          · rename_i hds
            exact power_of_digits [] he (by simp) hds
          · cases h
      · cases h

theorem numeral_iff_decimal? {cs : List Char} : Numeral cs ↔ (Number.decimal? cs).isSome := by
  constructor
  · rintro ⟨m, x, hm, hx, rfl⟩
    have hpower := power_iff_exponent?.1 hx
    have hd : Stops isDigit x := hx.stops (by decide) (by decide)
    have hp : Stops (· == '.') x := hx.stops (by decide) (by decide)
    cases hm with
    | whole hds hne =>
      simp only [Number.decimal?, takeWhile_of_stops hds hd, dropWhile_of_stops hds hd]
      split
      · exact absurd (hp '.' rfl) (by decide)
      · simpa [hne] using hpower
    | @point ds fs hds hfs hne =>
      have hdot : Stops isDigit ('.' :: (fs ++ x)) := stops_cons (by decide) _
      simp only [Number.decimal?, List.append_assoc, List.cons_append, takeWhile_of_stops hds hdot,
        dropWhile_of_stops hds hdot, takeWhile_of_stops hfs hd, dropWhile_of_stops hfs hd]
      have hsome : (decide (ds = []) && decide (fs = [])) = false := by
        rcases hne with h | h <;> simp [h]
      simp only [hsome, Bool.false_eq_true, if_false]
      simpa using hpower
  · intro h
    have hsplit := List.takeWhile_append_dropWhile (p := isDigit) (l := cs)
    simp only [Number.decimal?] at h
    split at h
    · rename_i r hr
      split at h
      · cases h
      · rename_i hne
        have hpower : Power (r.dropWhile isDigit) := power_iff_exponent?.2 (by simpa using h)
        refine ⟨cs.takeWhile isDigit ++ '.' :: r.takeWhile isDigit, _,
          .point of_mem_takeWhile of_mem_takeWhile ?_, hpower, ?_⟩
        · by_cases hds : cs.takeWhile isDigit = []
          · exact .inr fun hfs => hne (by simp [hds, hfs])
          · exact .inl hds
        · rw [List.append_assoc, List.cons_append, List.takeWhile_append_dropWhile, ← hr, hsplit]
    · split at h
      · cases h
      · rename_i hne
        have hpower : Power (cs.dropWhile isDigit) := power_iff_exponent?.2 (by simpa using h)
        exact ⟨_, _, .whole of_mem_takeWhile (by simpa using hne), hpower, hsplit.symm⟩

end ArithCompiler.Lexer

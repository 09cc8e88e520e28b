import ArithCompiler.Proofs.Lexer.Words

set_option autoImplicit false

/-!
# Numerals in the wide form

The wide form of a number admits more than the numerals. What it does before it reads one, that is
dropping blanks, changing digits of other scripts and joining groups, leaves a numeral as it is.
-/

namespace ArithCompiler.Number

/-- Nothing that the wide form treats in a way of its own. -/
structure IsPlain (c : Char) : Prop where
  notBlank : isBlank c = false
  ascii : asciiDigit c = c
  notJoint : c ≠ '_'

instance (c : Char) : Decidable (IsPlain c) :=
  decidable_of_iff (isBlank c = false ∧ asciiDigit c = c ∧ c ≠ '_')
    ⟨fun h => ⟨h.1, h.2.1, h.2.2⟩, fun h => ⟨h.notBlank, h.ascii, h.notJoint⟩⟩

theorem range_of_isDigit {c : Char} (h : isDigit c) : 48 ≤ c.toNat ∧ c.toNat ≤ 57 := by
  simp only [isDigit, Bool.and_eq_true, decide_eq_true_eq, Char.le_def] at h
  exact ⟨UInt32.le_iff_toNat_le.1 h.1, UInt32.le_iff_toNat_le.1 h.2⟩

theorem isPlain_of_isDigit {c : Char} (h : isDigit c) : IsPlain c := by
  have hrange := range_of_isDigit h
  refine ⟨?_, ?_, ?_⟩
  · have hspace : c ≠ ' ' := by rintro rfl; exact absurd h (by decide)
    simp only [isBlank, Bool.or_eq_false_iff, Bool.and_eq_false_iff, beq_eq_false_iff_ne,
      decide_eq_false_iff_not]
    refine ⟨⟨⟨⟨⟨⟨⟨⟨⟨⟨hspace, ?_⟩, ?_⟩, ?_⟩, ?_⟩, ?_⟩, ?_⟩, ?_⟩, ?_⟩, ?_⟩, ?_⟩ <;> omega
  · have hvalue : Text.decimalValue? c = some (c.toNat - 48) := by
      rw [Text.decimalValue?, Text.zeros, List.find?_cons_of_pos (by simpa using by omega)]
      rfl
    have hback : '0'.toNat + (c.toNat - 48) = c.toNat := by
      change 48 + (c.toNat - 48) = c.toNat
      omega
    simp only [asciiDigit, hvalue, hback, Char.ofNat_toNat]
  · rintro rfl
    exact absurd h (by decide)

theorem isPlain_of_mantissa {m : List Char} (h : Lexer.Mantissa m) : ∀ c ∈ m, IsPlain c := by
  intro c hc
  rcases h.digit_or_point c hc with hd | rfl
  · exact isPlain_of_isDigit hd
  · decide

theorem isPlain_of_power {x : List Char} (h : Lexer.Power x) : ∀ c ∈ x, IsPlain c := by
  have hmark : ∀ c ∈ ['e', 'E', '+', '-'], IsPlain c := by
    simp only [List.forall_mem_cons]
    exact ⟨by decide, by decide, by decide, by decide, nofun⟩
  cases h with
  | none => simp
  | some he hs hds =>
    intro c hc
    rcases List.mem_cons.1 hc with rfl | hc
    · rcases he with rfl | rfl <;> exact hmark _ (by simp)
    · rcases List.mem_append.1 hc with hc | hc
      · rcases hs with rfl | rfl | rfl
        · simp at hc
        all_goals
          obtain rfl := List.mem_singleton.1 hc
          exact hmark _ (by simp)
      · exact isPlain_of_isDigit (hds c hc)

theorem trim_of_plain {cs : List Char} (h : ∀ c ∈ cs, IsPlain c) : trim cs = cs := by
  have hdrop : ∀ ds : List Char, (∀ c ∈ ds, IsPlain c) → ds.dropWhile isBlank = ds := by
    intro ds hds
    cases ds with
    | nil => rfl
    | cons d ds => simp [(hds d List.mem_cons_self).notBlank]
  rw [trim, hdrop cs h, hdrop _ (fun c hc => h c (List.mem_reverse.1 hc)),
    List.reverse_reverse]

theorem joinGroups?_of_plain {cs : List Char} (h : ∀ c ∈ cs, IsPlain c) :
    joinGroups? cs = some cs := by
  induction cs using joinGroups?.induct with
  | case1 => rfl
  | case2 cs => exact absurd rfl (h '_' List.mem_cons_self).notJoint
  | case3 c d cs hc ih => exact absurd rfl (h '_' (by simp)).notJoint
  | case4 c d cs hc => exact absurd rfl (h '_' (by simp)).notJoint
  | case5 c cs hjoint hnext ih =>
    have hmore := ih fun d hd => h d (List.mem_cons_of_mem c hd)
    rw [joinGroups?, hmore]
    · rfl
    · exact hjoint
    · exact hnext

theorem toLower_of_lt {c : Char} (h : c.toNat < 65) : c.toLower = c := by
  unfold Char.toLower
  split
  · rename_i hc
    simp only [ge_iff_le, UInt32.le_iff_toNat_le] at hc
    have hupper : 65 ≤ c.toNat := hc.1
    omega
  · rfl

theorem toNat_of_startsNumber {c : Char} {rest : List Char} (h : Lexer.startsNumber c rest) :
    45 < c.toNat ∧ c.toNat < 58 := by
  simp only [Lexer.startsNumber, Bool.or_eq_true, Bool.and_eq_true, beq_iff_eq] at h
  rcases h with h | ⟨rfl, -⟩
  · have hrange := range_of_isDigit h
    omega
  · decide

/-- A numeral begins with a digit or a point, so it is no name of an infinity. -/
theorem magnitude?_of_numeral {cs : List Char} (h : Lexer.Numeral cs) :
    magnitude? cs = ofNumeral? cs := by
  obtain ⟨m, x, hm, -, rfl⟩ := h
  obtain ⟨c, m, rfl⟩ := List.exists_cons_of_ne_nil hm.ne_nil
  have hstart : Lexer.startsNumber c (m ++ []) := Lexer.startsNumber_of_mantissa hm
  obtain ⟨-, hhigh⟩ := toNat_of_startsNumber hstart
  have hword : ∀ word : List Char, word.head?.any ('A' ≤ ·) →
      (String.ofList (lowerCase (c :: (m ++ x))) == String.ofList word) = false := by
    rintro word hhead
    rw [beq_eq_false_iff_ne]
    intro heq
    have hlist := String.ofList_injective heq
    rw [lowerCase, List.map_cons, toLower_of_lt (by omega)] at hlist
    subst hlist
    have hletter : 65 ≤ c.toNat := by
      simpa [Char.le_def, UInt32.le_iff_toNat_le] using hhead
    omega
  have hinf := hword ['i', 'n', 'f'] (by decide)
  have hinfinity := hword ['i', 'n', 'f', 'i', 'n', 'i', 't', 'y'] (by decide)
  have hnan := hword ['n', 'a', 'n'] (by decide)
  rw [List.cons_append, magnitude?, hinf, hinfinity, hnan]
  rfl

theorem signed?_of_numeral {cs : List Char} (h : Lexer.Numeral cs) :
    signed? cs = ofNumeral? cs := by
  rw [← magnitude?_of_numeral h]
  obtain ⟨m, x, hm, -, rfl⟩ := h
  obtain ⟨c, m, rfl⟩ := List.exists_cons_of_ne_nil hm.ne_nil
  have hstart : Lexer.startsNumber c (m ++ []) := Lexer.startsNumber_of_mantissa hm
  obtain ⟨hlow, -⟩ := toNat_of_startsNumber hstart
  have hsign : ∀ s ds, s.toNat ≤ 45 → c :: (m ++ x) ≠ s :: ds := by
    rintro s ds hs heq
    obtain rfl := (List.cons.inj heq).1
    omega
  rw [List.cons_append, signed?]
  · exact fun ds => hsign '-' ds (by decide)
  · exact fun ds => hsign '+' ds (by decide)

theorem isPlain_of_numeral {cs : List Char} (h : Lexer.Numeral cs) : ∀ c ∈ cs, IsPlain c := by
  obtain ⟨m, x, hm, hx, rfl⟩ := h
  intro c hc
  rcases List.mem_append.1 hc with hc | hc
  · exact isPlain_of_mantissa hm c hc
  · exact isPlain_of_power hx c hc

theorem ofText?_of_plain {cs : List Char} (h : ∀ c ∈ cs, IsPlain c) :
    ofText? (String.ofList cs) = signed? cs := by
  have hascii : cs.map asciiDigit = cs := by
    conv => rhs; rw [← List.map_id cs]
    exact List.map_congr_left fun c hc => (h c hc).ascii
  rw [ofText?, String.toList_ofList, trim_of_plain h, hascii, joinGroups?_of_plain h]
  rfl

theorem ofText?_of_numeral {cs : List Char} (h : Lexer.Numeral cs) :
    ofText? (String.ofList cs) = ofNumeral? cs := by
  rw [ofText?_of_plain (isPlain_of_numeral h), signed?_of_numeral h]

end ArithCompiler.Number

import ArithCompiler.Proofs.Number.Rational

set_option autoImplicit false

/-!
# The remainder of the C library

The standard of C says what the remainder of two doubles is: the first less a multiple of the
second, with the sign of the first, and smaller than the second. There is one such function, and
computing with mantissas gives it, because the remainder has no more bits than its operands.
-/

namespace ArithCompiler.Number

open Float.Model (UnpackedFloat Format totalExponent)
open Float.Model.UnpackedFloat

/-! ## Small mantissas -/

theorem round_zero (s : Sign) (u : Int) : UnpackedFloat.round Format.binary64 s 0 u = .zero s := by
  have hshift (e : Int) :
      ∃ f, shiftToTargetExponent Format.binary64 0 e .exact = (⟨0, false, false⟩, f) := by
    have hrepeat := repeat_shiftRightOne_exact 0
      (Format.binary64.targetExponent (totalExponent 0 e) - e).toNat
    rw [Nat.zero_mul] at hrepeat
    exact ⟨_, congrArg (·, _) hrepeat⟩
  rw [UnpackedFloat.round]
  simp only [decreaseExponent, Nat.zero_shiftLeft]
  generalize u - ((u - Format.binary64.targetExponent (totalExponent 0 u)).toNat : Int) = e
  obtain ⟨f, hf⟩ := hshift e
  obtain ⟨g, hg⟩ := hshift f
  have hrounded : (⟨0, false, false⟩ : ExtendedMantissa).roundedMantissa = 0 := rfl
  rw [roundWithAccuracy]
  simp only [hf, hrounded, hg]
  rfl

/-- A mantissa that fits is moved to where doubles have it, and loses nothing. -/
theorem round_exact (s : Sign) {k : Nat} {u : Int} (hpos : 0 < k) (hlt : k < 2 ^ 53)
    (hleast : -1074 ≤ u) (hgreatest : u ≤ 971) :
    ∃ j : Nat, ∃ h : Representable (k * 2 ^ j) (u - j),
      UnpackedFloat.round Format.binary64 s k u = .finite s (k * 2 ^ j) (u - j) h.pos := by
  have hlog : k.log2 < 53 := (Nat.log2_lt (Nat.ne_of_gt hpos)).2 hlt
  let j := min (52 - k.log2) (u + 1074).toNat
  have hbits : (k * 2 ^ j).log2 = k.log2 + j := log2_mul_two_pow hpos j
  have hscaled : 0 < k * 2 ^ j := Nat.mul_pos hpos (Nat.two_pow_pos j)
  have h : Representable (k * 2 ^ j) (u - j) := by
    refine ⟨hscaled, (Nat.log2_lt (Nat.ne_of_gt hscaled)).1 (by omega), by omega, by omega, ?_⟩
    by_cases hfull : k.log2 + j = 52
    · exact .inl ((Nat.le_log2 (Nat.ne_of_gt hscaled)).1 (by omega))
    · exact .inr (by omega)
  refine ⟨j, h, ?_⟩
  have hamount : (u - Format.binary64.targetExponent (totalExponent k u)).toNat = j := by
    rw [targetExponent_binary64, totalExponent]
    omega
  have hexact := roundWithAccuracy_exact s h 0
  rw [Nat.pow_zero, Nat.mul_one, Int.natCast_zero, Int.sub_zero] at hexact
  rw [UnpackedFloat.round]
  simp only [decreaseExponent, hamount, Nat.shiftLeft_eq]
  exact hexact

theorem scaled_shift (s : Sign) (m : Nat) (e : Int) (j : Nat) :
    scaled s (m * 2 ^ j) (e - j) = scaled s m e := by
  rw [scaled, scaled, zpow_sub₀ (by norm_num), zpow_natCast]
  cases s <;> simp [Sign.apply] <;> field_simp

theorem rational?_round (s : Sign) {k : Nat} {u : Int} (hlt : k < 2 ^ 53) (hleast : -1074 ≤ u)
    (hgreatest : u ≤ 971) :
    rational? (round s k u) = some (scaled s k u) ∧ signOf (view (round s k u)) = s := by
  rcases Nat.eq_zero_or_pos k with rfl | hpos
  · have hview : view (round s 0 u) = .zero s := by
      rw [round, round_zero]
      exact view_ofView (u := .zero s) trivial
    rw [rational?, hview]
    refine ⟨?_, rfl⟩
    cases s <;> simp [scaled, Sign.apply]
  · obtain ⟨j, h, hround⟩ := round_exact s hpos hlt hleast hgreatest
    have hview : view (round s k u) = .finite s (k * 2 ^ j) (u - j) h.pos := by
      rw [round, hround]
      exact view_ofView (u := .finite s _ _ h.pos) h
    rw [rational?, hview]
    exact ⟨congrArg some (scaled_shift s k u j), rfl⟩

/-! ## The standard -/

/-- What the standard of C says of its function `fmod`. -/
structure IsRemainder (fmod : Float → Float → Float) : Prop where
  invalid : ∀ x y, x.isNaN ∨ x.isInf ∨ y.isNaN ∨ y == 0.0 → (fmod x y).isNaN
  infinite : ∀ x y, x.isFinite → y.isInf → fmod x y = x
  finite : ∀ x y p q, rational? x = some p → rational? y = some q → q ≠ 0 →
    ∃ r, rational? (fmod x y) = some r ∧ (∃ n : Int, p = n * q + r) ∧ |r| < |q| ∧
      signOf (view (fmod x y)) = signOf (view x)

section Unique

variable {x : Float} {q r r' : ℚ}

theorem nonneg_of_signOf (hx : rational? x = some q) (hs : signOf (view x) = .positive) :
    0 ≤ q := by
  rcases rational?_cases hx with ⟨s, hview, rfl⟩ | ⟨s, m, e, hm, hview, rfl⟩
  · exact le_refl 0
  · rw [hview] at hs
    rw [← not_lt, scaled_lt_zero_iff s hm]
    exact fun h => by cases h.symm.trans hs

theorem nonpos_of_signOf (hx : rational? x = some q) (hs : signOf (view x) = .negative) :
    q ≤ 0 := by
  rcases rational?_cases hx with ⟨s, hview, rfl⟩ | ⟨s, m, e, hm, hview, rfl⟩
  · exact le_refl 0
  · rw [hview] at hs
    exact ((scaled_lt_zero_iff s hm e).2 hs).le

/-- Two remainders of one sign that differ by a multiple of the divisor are the same. -/
theorem eq_of_remainders {n : Int} (hr : |r| < |q|) (hr' : |r'| < |q|)
    (hsign : 0 ≤ r ∧ 0 ≤ r' ∨ r ≤ 0 ∧ r' ≤ 0) (h : r - r' = n * q) : r = r' := by
  have hclose : |r - r'| < |q| := by
    rw [abs_lt] at hr hr' ⊢
    rcases hsign with ⟨h1, h2⟩ | ⟨h1, h2⟩ <;> constructor <;> linarith [hr.1, hr.2, hr'.1, hr'.2]
  have hq : 0 < |q| := (abs_nonneg r).trans_lt hr
  have hn : |(n : ℚ)| < 1 := by
    rw [h, abs_mul] at hclose
    exact (mul_lt_iff_lt_one_left hq).1 hclose
  have hzero : n = 0 := Int.abs_lt_one_iff.1 (by exact_mod_cast hn)
  rw [hzero, Int.cast_zero, zero_mul] at h
  exact sub_eq_zero.1 h

end Unique

/-- The cases that the standard tells apart. -/
theorem remainder_cases (x y : Float) : (x.isNaN ∨ x.isInf ∨ y.isNaN ∨ y == 0.0) ∨
    (x.isFinite ∧ y.isInf) ∨
      ∃ p q, rational? x = some p ∧ rational? y = some q ∧ q ≠ 0 := by
  rw [isNaN_iff, isInf_iff, isNaN_iff, beq_zero_iff_rational?, isInf_iff, isFinite_iff_rational?]
  cases hx : rational? x with
  | none =>
    refine .inl ?_
    rw [rational?] at hx
    cases hview : view x with
    | notANumber => exact .inl rfl
    | infinity s => exact .inr (.inl ⟨s, rfl⟩)
    | zero s | finite s m e hm => simp [hview] at hx
  | some p =>
    cases hy : rational? y with
    | some q =>
      by_cases hq : q = 0
      · exact .inl (.inr (.inr (.inr (congrArg some hq))))
      · exact .inr (.inr ⟨p, q, rfl, rfl, hq⟩)
    | none =>
      rw [rational?] at hy
      cases hview : view y with
      | notANumber => exact .inl (.inr (.inr (.inl rfl)))
      | infinity s => exact .inr (.inl ⟨⟨p, rfl⟩, s, rfl⟩)
      | zero s | finite s m e hm => simp [hview] at hy

/-- The standard leaves no choice. -/
theorem IsRemainder.unique {fmod fmod' : Float → Float → Float} (h : IsRemainder fmod)
    (h' : IsRemainder fmod') (x y : Float) : fmod x y = fmod' x y := by
  rcases remainder_cases x y with hinvalid | ⟨hx, hy⟩ | ⟨p, q, hx, hy, hq⟩
  · rw [eq_notANumber (h.invalid x y hinvalid), eq_notANumber (h'.invalid x y hinvalid)]
  · rw [h.infinite x y hx hy, h'.infinite x y hx hy]
  · obtain ⟨r, hr, ⟨n, hn⟩, hless, hsign⟩ := h.finite x y p q hx hy hq
    obtain ⟨r', hr', ⟨n', hn'⟩, hless', hsign'⟩ := h'.finite x y p q hx hy hq
    have hsigns : 0 ≤ r ∧ 0 ≤ r' ∨ r ≤ 0 ∧ r' ≤ 0 := by
      cases hs : signOf (view x) with
      | positive =>
        exact .inl ⟨nonneg_of_signOf hr (hsign.trans hs), nonneg_of_signOf hr' (hsign'.trans hs)⟩
      | negative =>
        exact .inr ⟨nonpos_of_signOf hr (hsign.trans hs), nonpos_of_signOf hr' (hsign'.trans hs)⟩
    have hmultiple : r - r' = (n' - n : Int) * q := by
      push_cast
      linarith
    obtain rfl := eq_of_remainders hless hless' hsigns hmultiple
    exact rational?_inj hr hr' (hsign.trans hsign'.symm)

theorem IsRemainder.isFinite {fmod : Float → Float → Float} (h : IsRemainder fmod) {x y : Float}
    (hvalid : ¬ (x.isNaN ∨ x.isInf ∨ y.isNaN ∨ y == 0.0)) : (fmod x y).isFinite := by
  rcases remainder_cases x y with hinvalid | ⟨hx, hy⟩ | ⟨p, q, hx, hy, hq⟩
  · exact absurd hinvalid hvalid
  · rw [h.infinite x y hx hy]
    exact hx
  · obtain ⟨r, hr, -⟩ := h.finite x y p q hx hy hq
    exact isFinite_iff_rational?.2 ⟨r, hr⟩

/-- In units of the smaller exponent both operands are integers. -/
theorem scaled_unit (s : Sign) (m : Nat) {e u : Int} (hu : u ≤ e) :
    scaled s m e = scaled s (m * 2 ^ (e - u).toNat) u := by
  have h := scaled_shift s m e (e - u).toNat
  rwa [show e - ((e - u).toNat : Int) = u by omega, eq_comm] at h

theorem scaled_div_mod (s t : Sign) (a b : Nat) (u : Int) :
    ∃ n : Int, scaled s a u = n * scaled t b u + scaled s (a % b) u := by
  have hdiv : (a : ℚ) = b * (a / b : Nat) + (a % b : Nat) := by
    exact_mod_cast (Nat.div_add_mod a b).symm
  generalize hk : a / b = k at hdiv
  generalize a % b = c at hdiv ⊢
  cases s <;> cases t
  · exact ⟨k, by simp [scaled, Sign.apply, hdiv]; ring⟩
  · exact ⟨-k, by simp [scaled, Sign.apply, hdiv]; ring⟩
  · exact ⟨-k, by simp [scaled, Sign.apply, hdiv]; ring⟩
  · exact ⟨k, by simp [scaled, Sign.apply, hdiv]; ring⟩

theorem remainder_finite {x y : Float} {s t : Sign} {m n : Nat} {e f : Int} {hm : 0 < m}
    {hn : 0 < n} (hx : view x = .finite s m e hm) (hy : view y = .finite t n f hn) :
    let u := min e f
    let c := m * 2 ^ (e - u).toNat % (n * 2 ^ (f - u).toNat)
    remainder x y = round s c u ∧ c < 2 ^ 53 := by
  intro u c
  refine ⟨by rw [remainder, hx, hy], ?_⟩
  have hrx := representable_of_view hx
  have hry := representable_of_view hy
  rcases Int.le_total e f with hle | hle
  · -- the first operand is in units of its own
    have hu : (e - u).toNat = 0 := by omega
    have hc : c ≤ m * 2 ^ (e - u).toNat := Nat.mod_le _ _
    rw [hu, Nat.pow_zero, Nat.mul_one] at hc
    exact Nat.lt_of_le_of_lt hc hrx.mantissa_lt
  · have hu : (f - u).toNat = 0 := by omega
    have hpos : 0 < n * 2 ^ (f - u).toNat := Nat.mul_pos hn (Nat.two_pow_pos _)
    have hc : c < n * 2 ^ (f - u).toNat := Nat.mod_lt _ hpos
    rw [hu, Nat.pow_zero, Nat.mul_one] at hc
    exact Nat.lt_trans hc hry.mantissa_lt

theorem remainder_isRemainder : IsRemainder remainder where
  invalid x y h := by
    have hnone : remainder x y = notANumber := by
      rw [isNaN_iff, isInf_iff, isNaN_iff, beq_zero_iff] at h
      rw [remainder]
      rcases h with hx | ⟨s, hx⟩ | hy | ⟨t, hy⟩
      · rw [hx]
      · rw [hx]
        cases view y <;> rfl
      · rw [hy]
        cases view x <;> rfl
      · rw [hy]
        cases view x <;> rfl
    rw [hnone, isNaN_iff, view_notANumber]
  infinite x y hx hy := by
    obtain ⟨q, hx⟩ := isFinite_iff_rational?.1 hx
    obtain ⟨t, hy⟩ := isInf_iff.1 hy
    rw [remainder, hy]
    rcases rational?_cases hx with ⟨s, hview, -⟩ | ⟨s, m, e, hm, hview, -⟩ <;> rw [hview]
  finite x y p q hx hy hq := by
    rcases rational?_cases hy with ⟨_, -, hzero⟩ | ⟨t, n, f, hn, hyview, rfl⟩
    · exact absurd hzero hq
    rcases rational?_cases hx with ⟨s, hxview, rfl⟩ | ⟨s, m, e, hm, hxview, rfl⟩
    · have hsame : remainder x y = x := by rw [remainder, hxview, hyview]
      rw [hsame]
      exact ⟨0, hx, ⟨0, by simp⟩, by simpa using abs_pos.2 hq, rfl⟩
    · obtain ⟨hremainder, hlt⟩ := remainder_finite hxview hyview
      have hrx := representable_of_view hxview
      have hry := representable_of_view hyview
      have hleast := hrx.least_le
      have hleast' := hry.least_le
      have hgreatest := hrx.le_greatest
      obtain ⟨hround, hsign⟩ := rational?_round s hlt (u := min e f) (by omega) (by omega)
      rw [hremainder, hround, hsign, hxview, scaled_unit s m (Int.min_le_left e f),
        scaled_unit t n (Int.min_le_right e f)]
      refine ⟨_, rfl, scaled_div_mod s t _ _ _, ?_, rfl⟩
      rw [abs_scaled, abs_scaled]
      have hpos : 0 < n * 2 ^ (f - min e f).toNat := Nat.mul_pos hn (Nat.two_pow_pos _)
      exact mul_lt_mul_of_pos_right (Nat.cast_lt.2 (Nat.mod_lt _ hpos)) (two_zpow_pos _)

end ArithCompiler.Number

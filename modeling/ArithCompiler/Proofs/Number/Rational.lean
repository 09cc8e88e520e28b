import ArithCompiler.Proofs.Number.Parity

set_option autoImplicit false

/-!
# Exact values

A finite double is a rational number, and what is said of doubles by their bits can be said of these
numbers: which are zero, which are negative and which are odd integers. But for the sign of a zero
the number determines the double.
-/

namespace ArithCompiler.Number

open Float.Model (UnpackedFloat)
open Float.Model.UnpackedFloat (Sign)

def scaled (s : Sign) (m : Nat) (e : Int) : ℚ := (s.apply m : Int) * (2 : ℚ) ^ e

def rational? (x : Float) : Option ℚ :=
  match view x with
  | .zero _ => some 0
  | .finite s m e _ => some (scaled s m e)
  | .infinity _ | .notANumber => none

/-! ## Scaled mantissas -/

theorem two_zpow_pos (e : Int) : (0 : ℚ) < 2 ^ e := zpow_pos (by norm_num) e

theorem scaled_neg (s : Sign) (m : Nat) (e : Int) :
    scaled (-s) m e = -scaled s m e := by
  cases s <;> simp [scaled, Sign.apply]

theorem abs_scaled (s : Sign) (m : Nat) (e : Int) : |scaled s m e| = m * 2 ^ e := by
  rw [scaled, abs_mul, abs_of_pos (two_zpow_pos e)]
  cases s <;> simp [Sign.apply]

theorem scaled_lt_zero_iff (s : Sign) {m : Nat} (hm : 0 < m) (e : Int) :
    scaled s m e < 0 ↔ s = .negative := by
  have hpos : (0 : ℚ) < m * 2 ^ e := mul_pos (Nat.cast_pos.2 hm) (two_zpow_pos e)
  cases s with
  | positive => simpa [scaled, Sign.apply] using hpos.le
  | negative => simpa [scaled, Sign.apply] using hpos

theorem scaled_ne_zero (s : Sign) {m : Nat} (hm : 0 < m) (e : Int) : scaled s m e ≠ 0 := by
  rw [← abs_pos, abs_scaled]
  exact mul_pos (Nat.cast_pos.2 hm) (two_zpow_pos e)

/-- A double has one mantissa and one exponent. -/
theorem Representable.eq_of_scaled {m n : Nat} {e f : Int} (hm : Representable m e)
    (hn : Representable n f) (h : (m : ℚ) * 2 ^ e = n * 2 ^ f) : m = n ∧ e = f := by
  wlog hle : e ≤ f generalizing m n e f
  · obtain ⟨rfl, rfl⟩ := this hn hm h.symm (by omega)
    exact ⟨rfl, rfl⟩
  obtain ⟨k, rfl⟩ : ∃ k : Nat, f = e + k := ⟨(f - e).toNat, by omega⟩
  have hshift : m = n * 2 ^ k := by
    rw [zpow_add₀ (by norm_num), zpow_natCast, mul_comm ((2 : ℚ) ^ e), ← mul_assoc] at h
    exact_mod_cast mul_right_cancel₀ (two_zpow_pos e).ne' h
  cases k with
  | zero => exact ⟨by simpa using hshift, by omega⟩
  | succ k =>
    -- another bit would not fit into the mantissa
    have hnormal := hn.normal_or_least.resolve_right (by have := hm.least_le; omega)
    have hlarge : n * 2 ≤ n * 2 ^ (k + 1) :=
      Nat.mul_le_mul_left n (Nat.pow_le_pow_right (show 0 < 2 by decide) (show 1 ≤ k + 1 by omega))
    have := hm.mantissa_lt
    omega

/-! ## Finite doubles -/

variable {x y : Float} {q : ℚ}

theorem rational?_cases (hx : rational? x = some q) :
    (∃ s, view x = .zero s ∧ q = 0) ∨
      ∃ s m e, ∃ hm : 0 < m, view x = .finite s m e hm ∧ q = scaled s m e := by
  rw [rational?] at hx
  cases h : view x with
  | notANumber | infinity s => simp [h] at hx
  | zero s => exact .inl ⟨s, rfl, by simpa [h] using hx.symm⟩
  | finite s m e hm => exact .inr ⟨s, m, e, hm, rfl, by simpa [h] using hx.symm⟩

theorem isFinite_iff_rational? : x.isFinite ↔ ∃ q, rational? x = some q := by
  change (view x).isFinite ↔ _
  rw [rational?]
  cases view x <;> simp [UnpackedFloat.isFinite]

theorem beq_zero_iff_rational? : x == 0.0 ↔ rational? x = some 0 := by
  rw [beq_zero_iff, rational?]
  cases view x with
  | notANumber | infinity s | zero s => simp
  | finite s m e hm => simp [scaled_ne_zero s hm e]

theorem lt_zero_iff_rational? (hx : rational? x = some q) : x < 0.0 ↔ q < 0 := by
  have hlt : x < 0.0 ↔ (view x).lt (.zero .positive) = true := decide_eq_true_iff
  rw [hlt]
  rcases rational?_cases hx with ⟨s, hview, rfl⟩ | ⟨s, m, e, hm, hview, rfl⟩
  · rw [hview]
    cases s <;> simp [UnpackedFloat.lt, UnpackedFloat.compare]
  · rw [hview, scaled_lt_zero_iff s hm]
    cases s <;> simp [UnpackedFloat.lt, UnpackedFloat.compare]

/-- A double is determined by its number and its sign. -/
theorem rational?_inj (hx : rational? x = some q) (hy : rational? y = some q)
    (hs : signOf (view x) = signOf (view y)) : x = y := by
  apply view_inj
  rcases rational?_cases hx with ⟨s, hview, rfl⟩ | ⟨s, m, e, hm, hview, rfl⟩ <;>
    rcases rational?_cases hy with ⟨t, hview', hq⟩ | ⟨t, n, f, hn, hview', hq⟩
  · rw [hview, hview'] at hs ⊢
    exact congrArg UnpackedFloat.zero hs
  · exact absurd hq.symm (scaled_ne_zero t hn f)
  · exact absurd hq (scaled_ne_zero s hm e)
  · rw [hview, hview'] at hs ⊢
    obtain rfl : s = t := hs
    have habs := congrArg abs hq
    rw [abs_scaled, abs_scaled] at habs
    obtain ⟨rfl, rfl⟩ :=
      (representable_of_view hview).eq_of_scaled (representable_of_view hview') habs
    rfl

/-! ## Odd integers -/

def IsOdd (q : ℚ) : Prop := ∃ n : Int, Odd n ∧ q = n

theorem isOdd_neg : IsOdd (-q) ↔ IsOdd q := by
  have hneg (q : ℚ) : IsOdd q → IsOdd (-q) := by
    rintro ⟨n, hn, rfl⟩
    exact ⟨-n, hn.neg, by push_cast; rfl⟩
  exact ⟨fun h => neg_neg q ▸ hneg (-q) h, hneg q⟩

theorem isOdd_natCast (n : Nat) : IsOdd n ↔ n % 2 = 1 := by
  rw [← Nat.odd_iff, ← Int.odd_coe_nat]
  constructor
  · rintro ⟨k, hk, hcast⟩
    obtain rfl : (n : Int) = k := by exact_mod_cast hcast
    exact hk
  · exact fun h => ⟨n, h, by push_cast; rfl⟩

theorem isOdd_scaled (s : Sign) (m : Nat) (e : Int) : IsOdd (scaled s m e) ↔ IsOdd (m * 2 ^ e) := by
  cases s with
  | positive => rfl
  | negative =>
    rw [← isOdd_neg, ← scaled_neg]
    rfl

theorem isOdd_mul_two_pow (m k : Nat) : IsOdd (m * 2 ^ (k : Int)) ↔ k = 0 ∧ m % 2 = 1 := by
  have hcast : (m : ℚ) * 2 ^ (k : Int) = (m * 2 ^ k : Nat) := by push_cast [zpow_natCast]; rfl
  rw [hcast, isOdd_natCast]
  cases k with
  | zero => simp
  | succ k =>
    have heven : m * 2 ^ (k + 1) % 2 = 0 := by
      rw [Nat.pow_succ, ← Nat.mul_assoc, Nat.mul_mod_left]
    omega

theorem isOdd_div_two_pow (m j : Nat) :
    IsOdd (m * 2 ^ (-j : Int)) ↔ m % 2 ^ j = 0 ∧ m / 2 ^ j % 2 = 1 := by
  have hunit : (2 : ℚ) ^ j ≠ 0 := by positivity
  rw [zpow_neg, zpow_natCast, ← div_eq_mul_inv]
  constructor
  · rintro ⟨n, hn, hquotient⟩
    have hscaled : (m : Int) = n * 2 ^ j := by
      rw [div_eq_iff hunit] at hquotient
      exact_mod_cast hquotient
    have hnonneg : 0 ≤ n :=
      nonneg_of_mul_nonneg_left (hscaled ▸ Int.natCast_nonneg m) (by positivity)
    lift n to Nat using hnonneg
    obtain rfl : m = n * 2 ^ j := by exact_mod_cast hscaled
    rw [Nat.mul_div_cancel n (Nat.two_pow_pos j)]
    exact ⟨Nat.mul_mod_left n _, Nat.odd_iff.1 ((Int.odd_coe_nat n).1 hn)⟩
  · rintro ⟨hinteger, hodd⟩
    obtain ⟨n, rfl⟩ := Nat.dvd_of_mod_eq_zero hinteger
    rw [Nat.mul_div_cancel_left n (Nat.two_pow_pos j)] at hodd
    push_cast
    rw [mul_div_cancel_left₀ (n : ℚ) hunit, isOdd_natCast]
    exact hodd

theorem isOddInteger_iff_rational? : isOddInteger x ↔ ∃ q, rational? x = some q ∧ IsOdd q := by
  rw [isOddInteger, rational?]
  cases hx : view x with
  | notANumber | infinity s => simp
  | zero s =>
    have hzero : ¬ IsOdd 0 := by
      rw [← Nat.cast_zero, isOdd_natCast]
      decide
    simp [hzero]
  | finite s m e hm =>
    simp only [Option.some.injEq, exists_eq_left']
    rw [isOdd_scaled]
    by_cases he : 0 ≤ e
    · obtain ⟨k, rfl⟩ := Int.eq_ofNat_of_zero_le he
      rw [isOdd_mul_two_pow, if_pos he]
      simp
    · obtain ⟨j, rfl⟩ : ∃ j : Nat, e = -j := ⟨(-e).toNat, by omega⟩
      have hnat : (-(-(j : Int))).toNat = j := by omega
      rw [isOdd_div_two_pow, if_neg he, hnat]
      simp

end ArithCompiler.Number

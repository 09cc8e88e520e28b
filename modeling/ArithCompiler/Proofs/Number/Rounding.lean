import ArithCompiler.Proofs.Number.Exact

set_option autoImplicit false

/-!
# Rounding gives doubles

What was rounded has at most 53 bits, so it is the view of a double unless its exponent has left the
range. A square root is far from the ends of the range.
-/

namespace ArithCompiler.Number

open Float.Model (UnpackedFloat Format totalExponent)
open Float.Model.UnpackedFloat
open Float.Model.UnpackedFloat.ExtendedMantissa (shiftRightOne ofMantissaAndAccuracy)

theorem shiftRight_mantissa (em : ExtendedMantissa) (k : Nat) :
    (em >>> k).mantissa = em.mantissa / 2 ^ k := by
  induction k with
  | zero =>
    change em.mantissa = em.mantissa / 1
    rw [Nat.div_one]
  | succ k ih =>
    change (em >>> k).mantissa / 2 = _
    rw [ih, Nat.div_div_eq_div_mul, Nat.pow_succ]

theorem ofMantissaAndAccuracy_mantissa (m : Nat) (accuracy : Accuracy) :
    (ofMantissaAndAccuracy m accuracy).mantissa = m := by
  cases accuracy with
  | exact => rfl
  | inexact relative => cases relative <;> rfl

theorem roundedMantissa_bounds (em : ExtendedMantissa) :
    em.mantissa ≤ em.roundedMantissa ∧ em.roundedMantissa ≤ em.mantissa + 1 := by
  obtain ⟨m, roundBit, stickyBit⟩ := em
  have hparity : m % 2 < 2 := Nat.mod_lt m (by decide)
  cases roundBit <;> cases stickyBit <;>
    simp only [ExtendedMantissa.roundedMantissa, ExtendedMantissa.accuracy,
      Accuracy.roundToNearestEven] <;> omega

theorem div_two_pow_lt {m k b : Nat} (h : m.log2 < b + k) : m / 2 ^ k < 2 ^ b := by
  rw [Nat.div_lt_iff_lt_mul (Nat.two_pow_pos k), ← Nat.pow_add]
  by_cases hm : m = 0
  · rw [hm]
    exact Nat.two_pow_pos _
  · exact (Nat.log2_lt hm).1 h

theorem le_div_two_pow {m k b : Nat} (hm : 0 < m) (h : b + k ≤ m.log2) : 2 ^ b ≤ m / 2 ^ k := by
  rw [Nat.le_div_iff_mul_le (Nat.two_pow_pos k), ← Nat.pow_add]
  exact (Nat.le_log2 (Nat.ne_of_gt hm)).1 h

/-- The shift before rounding leaves 53 bits, or fewer at the least exponent. -/
theorem shiftToTargetExponent_bounds {m : Nat} {e : Int} (accuracy : Accuracy) (hm : 0 < m)
    (hshift : e ≤ Format.binary64.targetExponent (totalExponent m e)) :
    ∃ em T, shiftToTargetExponent Format.binary64 m e accuracy = (em, T) ∧
      T = max (totalExponent m e - 53) (-1074) ∧ em.mantissa < 2 ^ 53 ∧
      (2 ^ 52 ≤ em.mantissa ∨ T = -1074) := by
  rw [targetExponent_binary64] at hshift
  refine ⟨_, _, rfl, ?_⟩
  simp only [shiftRight_mantissa, ofMantissaAndAccuracy_mantissa, targetExponent_binary64]
  generalize hk : (max (totalExponent m e - 53) (-1074) - e).toNat = k
  have hbits : totalExponent m e = m.log2 + 1 + e := rfl
  have hk' : (k : Int) = max (totalExponent m e - 53) (-1074) - e := by omega
  refine ⟨by omega, div_two_pow_lt (by omega), ?_⟩
  by_cases hleast : max (totalExponent m e - 53) (-1074) = -1074
  · exact .inr (by omega)
  · exact .inl (le_div_two_pow hm (by omega))

/-- The shift after rounding is needed only when rounding has given one bit more. -/
theorem representable_shiftToTargetExponent {r : Nat} {T : Int} (hr : r ≤ 2 ^ 53)
    (hnormal : 2 ^ 52 ≤ r ∨ T = -1074) (hleast : -1074 ≤ T) (hgreatest : T ≤ 970)
    (hne : (shiftToTargetExponent Format.binary64 r T .exact).1.mantissa ≠ 0) :
    Representable (shiftToTargetExponent Format.binary64 r T .exact).1.mantissa
      (shiftToTargetExponent Format.binary64 r T .exact).2 := by
  by_cases hcarry : r = 2 ^ 53
  · have h : Representable (2 ^ 52) (T + 1) :=
      ⟨by decide, by decide, by omega, by omega, .inl (Nat.le_refl _)⟩
    have hshift := shiftToTargetExponent_exact h 1
    have hdouble : (2 ^ 52 * 2 ^ 1 : Nat) = 2 ^ 53 := by decide
    rw [hdouble, ← hcarry, show T + 1 - (1 : Nat) = T by omega] at hshift
    rw [hshift]
    exact h
  · have hpos : 0 < r := by
      rw [Nat.pos_iff_ne_zero]
      intro h0
      apply hne
      rw [shiftToTargetExponent, shiftToExponent, shiftRight_mantissa,
        ofMantissaAndAccuracy_mantissa, h0, Nat.zero_div]
    have h : Representable r T := ⟨hpos, by omega, hleast, by omega, hnormal⟩
    have hshift := shiftToTargetExponent_exact h 0
    rw [Nat.pow_zero, Nat.mul_one, Int.natCast_zero, Int.sub_zero] at hshift
    rw [hshift]
    exact h

/-- A rounded number of enough bits is the view of a double, if it is not beyond the greatest. -/
theorem canonical_roundWithAccuracy (s : Sign) {m : Nat} {e : Int} (accuracy : Accuracy)
    (hm : 0 < m) (hshift : e ≤ Format.binary64.targetExponent (totalExponent m e))
    (hrange : totalExponent m e ≤ 1023) :
    Canonical (roundWithAccuracy Format.binary64 s m e accuracy) := by
  obtain ⟨em, T, hfirst, hT, hlt, hnormal⟩ := shiftToTargetExponent_bounds accuracy hm hshift
  obtain ⟨hle, hsucc⟩ := roundedMantissa_bounds em
  rw [roundWithAccuracy, hfirst]
  dsimp only
  split
  · trivial
  · rename_i hne
    exact representable_shiftToTargetExponent (by omega) (by omega) (by omega) (by omega) hne

theorem roundWithAccuracy_ne_infinity (s t : Sign) (m : Nat) (e : Int) (accuracy : Accuracy) :
    roundWithAccuracy Format.binary64 s m e accuracy ≠ .infinity t := by
  rw [roundWithAccuracy]
  dsimp only
  intro h
  split at h <;> cases h

/-! ## Integers -/

theorem round_scaled (s : Sign) {m : Nat} {e : Int} (h : Representable m e) (k : Nat) :
    UnpackedFloat.round Format.binary64 s (m * 2 ^ k) (e - k) = .finite s m e h.pos := by
  have htotal : totalExponent (m * 2 ^ k) (e - k) = totalExponent m e := by
    rw [totalExponent, totalExponent, log2_mul_two_pow h.pos]
    omega
  have hamount : (e - k - e).toNat = 0 := by omega
  rw [UnpackedFloat.round]
  simp only [htotal, h.target, decreaseExponent, hamount, Nat.shiftLeft_zero, Int.natCast_zero,
    Int.sub_zero]
  exact roundWithAccuracy_exact s h k

theorem representable_integer {n : Nat} (hpos : 0 < n) (hlt : n < 2 ^ 53) :
    Representable (n * 2 ^ (52 - n.log2)) (-(52 - n.log2 : Nat)) := by
  have hlog : n.log2 < 53 := (Nat.log2_lt (Nat.ne_of_gt hpos)).2 hlt
  have hscaled := Nat.mul_pos hpos (Nat.two_pow_pos (52 - n.log2))
  have hbits : (n * 2 ^ (52 - n.log2)).log2 = 52 := by
    rw [log2_mul_two_pow hpos]
    omega
  obtain ⟨hlow, hhigh⟩ := (Nat.log2_eq_iff (Nat.ne_of_gt hscaled)).1 hbits
  exact ⟨hscaled, hhigh, by omega, by omega, .inl hlow⟩

theorem round_integer (s : Sign) {n : Nat} (hpos : 0 < n) (hlt : n < 2 ^ 53) :
    UnpackedFloat.round Format.binary64 s n 0
      = .finite s (n * 2 ^ (52 - n.log2)) (-(52 - n.log2 : Nat))
          (representable_integer hpos hlt).pos := by
  have hlog : n.log2 < 53 := (Nat.log2_lt (Nat.ne_of_gt hpos)).2 hlt
  have htarget : Format.binary64.targetExponent (totalExponent n 0) = -(52 - n.log2 : Nat) := by
    rw [targetExponent_binary64, totalExponent]
    omega
  have hamount : (0 - -((52 - n.log2 : Nat) : Int)).toNat = 52 - n.log2 := by omega
  have hexact := roundWithAccuracy_exact s (representable_integer hpos hlt) 0
  rw [Nat.pow_zero, Nat.mul_one, Int.natCast_zero, Int.sub_zero] at hexact
  rw [UnpackedFloat.round]
  simp only [htarget, decreaseExponent, hamount, Nat.shiftLeft_eq]
  rw [Int.zero_sub, hexact]

/-! ## Square roots -/

theorem log2_sqrt {n : Nat} (hn : 0 < n) : n.sqrt.log2 = n.log2 / 2 := by
  have hlow : 2 ^ (n.log2 / 2) ≤ n.sqrt := by
    have hroot := Nat.lt_succ_sqrt n
    have hsquare : 2 ^ (n.log2 / 2) * 2 ^ (n.log2 / 2) ≤ n := by
      rw [← Nat.pow_add]
      exact (Nat.le_log2 (Nat.ne_of_gt hn)).1 (by omega)
    apply Nat.le_of_lt_succ
    exact Nat.mul_self_lt_mul_self_iff.1 (Nat.lt_of_le_of_lt hsquare hroot)
  have hhigh : n.sqrt < 2 ^ (n.log2 / 2 + 1) := by
    have hsquare : n < 2 ^ (n.log2 / 2 + 1) * 2 ^ (n.log2 / 2 + 1) := by
      rw [← Nat.pow_add]
      exact (Nat.log2_lt (Nat.ne_of_gt hn)).1 (by omega)
    exact Nat.mul_self_lt_mul_self_iff.1 (Nat.lt_of_le_of_lt (Nat.sqrt_le n) hsquare)
  have hpos : n.sqrt ≠ 0 := Nat.ne_of_gt (Nat.lt_of_lt_of_le (Nat.two_pow_pos _) hlow)
  exact (Nat.log2_eq_iff hpos).2 ⟨hlow, hhigh⟩

/-- The root has half the exponent, and the bits that rounding needs. -/
theorem totalExponent_sqrtCore {m : Nat} {e : Int} (hm : 0 < m) :
    ∃ root T accuracy, sqrtCore Format.binary64 m e = (root, T, accuracy) ∧ 0 < root ∧
      totalExponent root T = (totalExponent m e + 1) / 2 ∧
      T ≤ Format.binary64.targetExponent (totalExponent root T) := by
  refine ⟨_, _, _, rfl, ?_⟩
  have hediv : ∀ a : Int, a.ediv 2 = a / 2 := fun _ => rfl
  rw [Nat.shiftLeft_eq, hediv, hediv, targetExponent_binary64]
  generalize hT : min (e / 2) (max ((totalExponent m e + 1) / 2 - 53) (-1074)) = T
  have hscaled : 0 < m * 2 ^ (e - 2 * T).toNat := Nat.mul_pos hm (Nat.two_pow_pos _)
  have htotal : totalExponent (m * 2 ^ (e - 2 * T).toNat).sqrt T = (totalExponent m e + 1) / 2 := by
    rw [totalExponent, totalExponent, log2_sqrt hscaled, log2_mul_two_pow hm]
    omega
  rw [htotal, targetExponent_binary64]
  refine ⟨?_, rfl, by omega⟩
  rw [Nat.pos_iff_ne_zero]
  intro hzero
  have hroot := Nat.lt_succ_sqrt (m * 2 ^ (e - 2 * T).toNat)
  rw [hzero] at hroot
  omega

theorem canonical_sqrt {u : UnpackedFloat} (h : Canonical u) :
    Canonical (sqrt Format.binary64 u) := by
  cases u with
  | notANumber => trivial
  | infinity s => cases s <;> trivial
  | zero s => trivial
  | finite s m e hm =>
    cases s with
    | negative => trivial
    | positive =>
      obtain ⟨root, T, accuracy, hcore, hpos, htotal, hshift⟩ := totalExponent_sqrtCore (e := e) hm
      have hlog := h.log2_lt
      have hgreatest := h.le_greatest
      have hrange : totalExponent root T ≤ 1023 := by
        rw [htotal, totalExponent]
        omega
      rw [sqrt, hcore]
      exact canonical_roundWithAccuracy .positive accuracy hpos hshift hrange

theorem sqrt_ne_infinity {u : UnpackedFloat} (h : u.isFinite) (t : Sign) :
    sqrt Format.binary64 u ≠ .infinity t := by
  cases u with
  | notANumber => cases h
  | infinity s => cases h
  | zero s => nofun
  | finite s m e hm =>
    cases s with
    | negative => nofun
    | positive => exact roundWithAccuracy_ne_infinity _ _ _ _ _

end ArithCompiler.Number

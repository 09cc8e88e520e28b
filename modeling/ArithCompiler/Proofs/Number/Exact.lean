import ArithCompiler.Number.Decimal
import ArithCompiler.Proofs.Number.Canonical

set_option autoImplicit false

/-!
# Exact values are not rounded

Rounding drops only bits that do not matter when the value is that of a double, so a decimal number
that is a double is read as that double.
-/

namespace ArithCompiler.Number

open Float.Model (UnpackedFloat Format totalExponent)
open Float.Model.UnpackedFloat
open Float.Model.UnpackedFloat.ExtendedMantissa (shiftRightOne)

theorem targetExponent_binary64 (t : Int) :
    Format.binary64.targetExponent t = max (t - 53) (-1074) := rfl

theorem log2_mul_two_pow {m : Nat} (h : 0 < m) (k : Nat) : (m * 2 ^ k).log2 = m.log2 + k := by
  induction k with
  | zero => simp
  | succ k ih =>
    have hne : m * 2 ^ k ≠ 0 := Nat.ne_of_gt (Nat.mul_pos h (Nat.two_pow_pos k))
    rw [show m * 2 ^ (k + 1) = 2 * (m * 2 ^ k) by rw [Nat.pow_succ]; ac_rfl, Nat.log2_two_mul hne,
      ih]
    omega

theorem log2_mul_le {m n : Nat} (hm : 0 < m) (hn : 0 < n) :
    (m * n).log2 ≤ m.log2 + n.log2 + 1 := by
  have hlt : m * n < 2 ^ (m.log2 + n.log2 + 2) := by
    calc
      m * n < 2 ^ (m.log2 + 1) * 2 ^ (n.log2 + 1) :=
        Nat.mul_lt_mul_of_lt_of_lt ((Nat.log2_lt (Nat.ne_of_gt hm)).1 (Nat.lt_succ_self _))
          ((Nat.log2_lt (Nat.ne_of_gt hn)).1 (Nat.lt_succ_self _))
      _ = 2 ^ (m.log2 + n.log2 + 2) := by
        rw [← Nat.pow_add]
        congr 1
        omega
  have h := (Nat.log2_lt (Nat.ne_of_gt (Nat.mul_pos hm hn))).2 hlt
  omega

theorem Representable.target {m : Nat} {e : Int} (h : Representable m e) :
    Format.binary64.targetExponent (totalExponent m e) = e := by
  rw [targetExponent_binary64, totalExponent]
  have hlt := h.log2_lt
  have hleast := h.least_le
  rcases h.log2_eq_or_least with hm | he
  · rw [hm]
    omega
  · omega

theorem repeat_shiftRightOne_exact (m n : Nat) :
    n.repeat shiftRightOne ⟨m * 2 ^ n, false, false⟩ = ⟨m, false, false⟩ := by
  induction n generalizing m with
  | zero => simp [Nat.repeat]
  | succ n ih =>
    have hdouble : m * 2 ^ (n + 1) = 2 * m * 2 ^ n := by
      rw [Nat.pow_succ]
      ac_rfl
    rw [Nat.repeat, hdouble, ih]
    simp [shiftRightOne]

theorem shiftToExponent_exact (m k : Nat) (e : Int) :
    shiftToExponent (m * 2 ^ k) (e - k) .exact e = (⟨m, false, false⟩, e) := by
  have hamount : (e - (e - k)).toNat = k := by omega
  have hexponent : e - k + k = e := by omega
  rw [shiftToExponent]
  simp only [hamount, hexponent]
  exact congrArg (·, e) (repeat_shiftRightOne_exact m k)

theorem shiftToTargetExponent_exact {m : Nat} {e : Int} (h : Representable m e) (k : Nat) :
    shiftToTargetExponent Format.binary64 (m * 2 ^ k) (e - k) .exact
      = (⟨m, false, false⟩, e) := by
  have htotal : totalExponent (m * 2 ^ k) (e - k) = totalExponent m e := by
    rw [totalExponent, totalExponent, log2_mul_two_pow h.pos]
    omega
  rw [shiftToTargetExponent, htotal, h.target, shiftToExponent_exact]

/-- Bits beyond the mantissa are dropped without loss when they are zeros. -/
theorem roundWithAccuracy_exact (s : Sign) {m : Nat} {e : Int} (h : Representable m e) (k : Nat) :
    roundWithAccuracy Format.binary64 s (m * 2 ^ k) (e - k) .exact = .finite s m e h.pos := by
  have hagain : shiftToTargetExponent Format.binary64 m e .exact = (⟨m, false, false⟩, e) := by
    have := shiftToTargetExponent_exact h 0
    simpa using this
  have hrounded : (⟨m, false, false⟩ : ExtendedMantissa).roundedMantissa = m := rfl
  rw [roundWithAccuracy]
  simp only [shiftToTargetExponent_exact h k, hrounded, hagain]
  exact dif_neg (Nat.ne_of_gt h.pos)

/-! ## Exact decimal numbers -/

theorem ofScientific_integer {m : Nat} {e : Int} (h : Representable m e) (he : 0 ≤ e) :
    ofScientific Format.binary64 (m * 2 ^ e.toNat) 0 = .finite .positive m e h.pos := by
  have hne : m * 2 ^ e.toNat ≠ 0 := Nat.ne_of_gt (Nat.mul_pos h.pos (Nat.two_pow_pos _))
  have hmantissa : (m * 2 ^ e.toNat) <<< 53 * 10 ^ (0 : Int).toNat = m * 2 ^ (e.toNat + 53) := by
    change (m * 2 ^ e.toNat) <<< 53 * 1 = _
    rw [Nat.shiftLeft_eq, Nat.mul_one, Nat.mul_assoc, ← Nat.pow_add]
  have hexponent : (-53 : Int) + 0 = e - (e.toNat + 53 : Nat) := by omega
  rw [ofScientific, dif_neg hne, if_neg (by decide),
    if_neg (by change ¬ ((0 : Int) < -(2048 + _)); omega), if_pos (by decide)]
  change roundWithAccuracy Format.binary64 (.positive * .positive)
    ((m * 2 ^ e.toNat) <<< 53 * 10 ^ (0 : Int).toNat) (-53 + 0) .exact = _
  rw [hmantissa, hexponent, roundWithAccuracy_exact _ h]
  rfl

/-- Dividing `m · 5 ^ j` by `10 ^ j` leaves `m / 2 ^ j`, and the quotient has enough bits for all
    of `m`. -/
theorem divCore_exact {m j : Nat} (h : Representable m (-j)) :
    ∃ k : Nat, divCore Format.binary64 (m * 5 ^ j) 0 (10 ^ j) 0
      = (m * 2 ^ k, (-j : Int) - k, .exact) := by
  have hfive : 0 < 5 ^ j := Nat.pow_pos (by decide)
  have hten : (10 : Nat) ^ j = 5 ^ j * 2 ^ j := by rw [← Nat.mul_pow]
  have hbits : (m * 5 ^ j).log2 ≤ m.log2 + (5 ^ j).log2 + 1 := log2_mul_le h.pos hfive
  have hlog : (10 ^ j).log2 = (5 ^ j).log2 + j := by rw [hten, log2_mul_two_pow hfive]
  have hmantissa := h.log2_lt
  have hleast := h.least_le
  generalize hT : min ((0 : Int) - 0) (Format.binary64.targetExponent
    (totalExponent (m * 5 ^ j) 0 - totalExponent (10 ^ j) 0)) = T
  have hTj : T ≤ -j := by
    rw [← hT, targetExponent_binary64, totalExponent, totalExponent, hlog]
    omega
  obtain ⟨k, hk⟩ : ∃ k : Nat, (0 - 0 - T).toNat = j + k := ⟨(0 - 0 - T).toNat - j, by omega⟩
  have hscaled : (m * 5 ^ j) <<< (j + k) = m * 2 ^ k * 10 ^ j := by
    have htwo : (2 : Nat) ^ (j + k) = 2 ^ j * 2 ^ k := Nat.pow_add 2 j k
    rw [Nat.shiftLeft_eq, htwo, hten]
    ac_rfl
  refine ⟨k, ?_⟩
  rw [divCore]
  simp only [hT, hk, hscaled, Nat.mul_div_cancel _ (Nat.pow_pos (n := j) (show 0 < 10 by decide)),
    Nat.mul_mod_left]
  rw [show T = -j - k by omega]
  rfl

theorem ofScientific_fraction {m j : Nat} (h : Representable m (-j)) (hj : 0 < j) :
    ofScientific Format.binary64 (m * 5 ^ j) (-j) = .finite .positive m (-j) h.pos := by
  have hne : m * 5 ^ j ≠ 0 := Nat.ne_of_gt (Nat.mul_pos h.pos (Nat.pow_pos (by decide)))
  have hleast := h.least_le
  obtain ⟨k, hk⟩ := divCore_exact h
  rw [ofScientific, dif_neg hne, if_neg (by change ¬ (-(j : Int) > 2048); omega),
    if_neg (by change ¬ (-(j : Int) < -(2048 + _)); omega), if_neg (by omega)]
  have hnat : (-(-(j : Int))).toNat = j := by omega
  simp only [hnat, div, hk, roundWithAccuracy_exact _ h]
  rfl

end ArithCompiler.Number

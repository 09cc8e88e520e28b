import ArithCompiler.Proofs.Math.Guarded

set_option autoImplicit false

/-!
# Odd integers

A double is an odd integer when it equals its integral part and two leaves a remainder.
-/

namespace ArithCompiler.Number

open Float.Model (UnpackedFloat Format)
open Float.Model.UnpackedFloat (Sign)

theorem beq_iff_eq_of_finite {x y : Float} {s : Sign} {m : Nat} {e : Int} {hm : 0 < m}
    (hx : view x = .finite s m e hm) : x == y ↔ x = y := by
  change (view x).beq (view y) ↔ _
  rw [UnpackedFloat.beq_iff_ne_notANumber_and_eq, hx]
  constructor
  · rintro ⟨-, -, heq | ⟨h, -⟩ | ⟨h, -⟩⟩
    · exact view_inj (hx.trans heq)
    · cases h
    · cases h
  · rintro rfl
    rw [hx]
    exact ⟨nofun, nofun, .inl rfl⟩

/-- A mantissa of a fraction that is an integer has room for no more than 52 bits after the
    point. -/
theorem Representable.integral {m j : Nat} (h : Representable m (-j)) (hj : m % 2 ^ j = 0) :
    j ≤ 52 := by
  have hle : 2 ^ j ≤ m := Nat.le_of_dvd h.pos (Nat.dvd_of_mod_eq_zero hj)
  have hlt : 2 ^ j < 2 ^ 53 := Nat.lt_of_le_of_lt hle h.mantissa_lt
  exact Nat.le_of_lt_succ ((Nat.pow_lt_pow_iff_right (by decide)).1 hlt)

theorem eq_round_integer {x : Float} {s : Sign} {m j : Nat} {hm : 0 < m}
    (hx : view x = .finite s m (-j) hm) (hj : m % 2 ^ j = 0) : x = round s (m / 2 ^ j) 0 := by
  have hrepresentable := representable_of_view hx
  have hscaled : m / 2 ^ j * 2 ^ j = m := Nat.div_mul_cancel (Nat.dvd_of_mod_eq_zero hj)
  have hpos : 0 < m / 2 ^ j := by
    rw [Nat.pos_iff_ne_zero]
    intro h
    rw [h, Nat.zero_mul] at hscaled
    omega
  have hlt : m / 2 ^ j < 2 ^ 53 :=
    Nat.lt_of_le_of_lt (Nat.div_le_self _ _) hrepresentable.mantissa_lt
  have hbits : (m / 2 ^ j).log2 + j = 52 := by
    have hlog : m.log2 = (m / 2 ^ j).log2 + j := by
      conv_lhs => rw [← hscaled]
      exact log2_mul_two_pow hpos j
    have hle := hrepresentable.integral hj
    have := hrepresentable.log2_eq_or_least
    omega
  have hplaces : 52 - (m / 2 ^ j).log2 = j := by omega
  apply view_inj
  rw [round, round_integer s hpos hlt,
    view_ofView (u := .finite s _ _ _) (representable_integer hpos hlt), hx]
  simp only [hplaces, hscaled]

/-- What is rounded to an integer is one. -/
theorem integral_of_eq_round {x : Float} {s : Sign} {m n j : Nat} {hm : 0 < m}
    (hx : view x = .finite s m (-j) hm) (hn : n < 2 ^ 53) (h : x = round s n 0) :
    m % 2 ^ j = 0 := by
  rcases Nat.eq_zero_or_pos n with rfl | hpos
  · rw [h] at hx
    cases s <;> cases hx
  · rw [h, round, round_integer s hpos hn,
      view_ofView (u := .finite s _ _ _) (representable_integer hpos hn)] at hx
    simp only [UnpackedFloat.finite.injEq, true_and] at hx
    obtain ⟨hmantissa, hplaces⟩ := hx
    have hj : 52 - n.log2 = j := by omega
    rw [← hmantissa, hj, Nat.mul_mod_left]

theorem beq_toIntegral_iff {d : Direction} {x : Float} {s : Sign} {m : Nat} {e : Int} {hm : 0 < m}
    (hx : view x = .finite s m e hm) : x == toIntegral d x ↔ 0 ≤ e ∨ m % 2 ^ (-e).toNat = 0 := by
  rw [beq_iff_eq_of_finite hx, toIntegral, hx]
  by_cases he : 0 ≤ e
  · simp only [he, true_or, if_true]
  · obtain ⟨j, rfl⟩ : ∃ j : Nat, e = -j := ⟨(-e).toNat, by omega⟩
    have hnat : (-(-(j : Int))).toNat = j := by omega
    have hrepresentable := representable_of_view hx
    simp only [he, if_false, false_or, hnat]
    constructor
    · exact integral_of_eq_round hx
        (Math.integralMagnitude_lt d s hrepresentable.mantissa_lt (by omega))
    · intro hj
      have hmagnitude : integralMagnitude d s m (-j) = m / 2 ^ j := by
        rw [integralMagnitude, if_neg he, hnat]
        simp only [hj]
        rfl
      rw [hmagnitude]
      exact eq_round_integer hx hj

/-- The remainder by two, in units of which an integer has `2 ^ 51` or `2 ^ 52`. -/
theorem remainder_two_beq_zero {x : Float} {s : Sign} {m n u : Nat} {e : Int} {hm : 0 < m}
    (hx : view x = .finite s m e hm) (hunit : min e (-51) = -(u : Int)) (hu : u ≤ 52)
    (hn : m * 2 ^ (e + u).toNat = n * 2 ^ u) : remainder x 2.0 == 0.0 ↔ n % 2 = 0 := by
  have htwo : view 2.0 = .finite .positive (2 ^ 52) (-51) (by decide) := rfl
  have hdivisor : 2 ^ 52 * 2 ^ (-51 - -(u : Int)).toNat = 2 * 2 ^ u := by
    have hexponent : (-51 - -(u : Int)).toNat + 51 = u := by omega
    conv_rhs => rw [← hexponent]
    rw [Nat.pow_add, show 2 ^ 52 = 2 * 2 ^ 51 by decide]
    ac_rfl
  have hsub : e - -(u : Int) = e + u := by omega
  have hremainder : remainder x 2.0 = round s (n % 2 * 2 ^ u) (-(u : Int)) := by
    rw [remainder, hx, htwo]
    simp only [hunit, hdivisor, hsub, hn, Nat.mul_mod_mul_right]
  have hplaces : u = 51 ∨ u = 52 := by omega
  rw [hremainder]
  rcases Nat.mod_two_eq_zero_or_one n with h | h <;> rw [h]
  · rcases hplaces with rfl | rfl <;> cases s <;> decide
  · rcases hplaces with rfl | rfl <;> cases s <;> decide

theorem isOddInteger_iff_integer {x : Float} {s : Sign} {m k : Nat} {hm : 0 < m}
    (hx : view x = .finite s m k hm) : isOddInteger x ↔ ¬ remainder x 2.0 == 0.0 := by
  have hn : m * 2 ^ ((k : Int) + (51 : Nat)).toNat = m * 2 ^ k * 2 ^ 51 := by
    rw [← Int.natCast_add, Int.toNat_natCast, Nat.pow_add, Nat.mul_assoc]
  rw [remainder_two_beq_zero hx (u := 51) (by omega) (by decide) hn, isOddInteger, hx]
  simp only [Int.natCast_nonneg, if_true, Bool.and_eq_true, beq_iff_eq]
  cases k with
  | zero => simp
  | succ k =>
    have heven : m * 2 ^ (k + 1) % 2 = 0 := by
      rw [Nat.pow_succ, ← Nat.mul_assoc, Nat.mul_mod_left]
    rw [heven]
    omega

theorem isOddInteger_iff_fraction {x : Float} {s : Sign} {m j : Nat} {hm : 0 < m}
    (hx : view x = .finite s m (-j) hm) (hpos : 0 < j) :
    isOddInteger x ↔ m % 2 ^ j = 0 ∧ ¬ remainder x 2.0 == 0.0 := by
  have hneg : ¬ 0 ≤ -(j : Int) := by omega
  have hnat : (-(-(j : Int))).toNat = j := by omega
  rw [isOddInteger, hx]
  simp only [hneg, if_false, hnat, Bool.and_eq_true, beq_iff_eq]
  apply and_congr_right
  intro hj
  have hle := (representable_of_view hx).integral hj
  have hscaled : m / 2 ^ j * 2 ^ j = m := Nat.div_mul_cancel (Nat.dvd_of_mod_eq_zero hj)
  have hn : m * 2 ^ (-(j : Int) + (max j 51 : Nat)).toNat = m / 2 ^ j * 2 ^ max j 51 := by
    have hexponent : (-(j : Int) + (max j 51 : Nat)).toNat = max j 51 - j := by omega
    have hpower : 2 ^ max j 51 = 2 ^ j * 2 ^ (max j 51 - j) := by
      rw [← Nat.pow_add, Nat.add_sub_cancel' (Nat.le_max_left j 51)]
    rw [hexponent, hpower, ← Nat.mul_assoc, hscaled]
  rw [remainder_two_beq_zero hx (by omega) (by omega) hn]
  omega

/-- An odd integer equals its integral part and leaves a remainder by two. -/
theorem isOddInteger_iff {d : Direction} {x : Float} (hx : x.isFinite) :
    isOddInteger x ↔ x == toIntegral d x ∧ ¬ remainder x 2.0 == 0.0 := by
  change (view x).isFinite = true at hx
  cases hview : view x with
  | notANumber | infinity s =>
    rw [hview] at hx
    cases hx
  | zero s =>
    have hremainder : remainder x 2.0 = x := by
      rw [remainder, hview]
      rfl
    rw [hremainder, isOddInteger, hview]
    simp [beq_zero_iff.2 ⟨s, hview⟩]
  | finite s m e hm =>
    rw [beq_toIntegral_iff hview]
    by_cases he : 0 ≤ e
    · obtain ⟨k, rfl⟩ := Int.eq_ofNat_of_zero_le he
      rw [isOddInteger_iff_integer hview, iff_and_self]
      exact fun _ => .inl he
    · obtain ⟨j, rfl⟩ : ∃ j : Nat, e = -j := ⟨(-e).toNat, by omega⟩
      have hnat : (-(-(j : Int))).toNat = j := by omega
      rw [isOddInteger_iff_fraction hview (by omega), hnat, or_iff_right he]

end ArithCompiler.Number

import ArithCompiler.Math.Guarded
import ArithCompiler.Proofs.Number.Kinds

set_option autoImplicit false

/-!
# Guarded functions are those of the C library

Division, remainder and square root need no assumption. A function of the platform comes back
unchanged from its guard when its infinities are where the standard of C puts them. Rounding to an
integer comes back unchanged but for a zero with a minus sign.
-/

namespace ArithCompiler.Math

open Float.Model (UnpackedFloat Format)
open Float.Model.UnpackedFloat (Sign)
open Number

/-! ## Arithmetic -/

theorem quotient_eq (x y : Float) : quotient x y = x / y := by
  rw [quotient]
  by_cases hy : y == 0.0
  · obtain ⟨t, ht⟩ := beq_zero_iff.1 hy
    have hproduct : withSignOf positiveInfinity x * withSignOf 1.0 y
        = ofView (.infinity (signOf (view x) * t)) := by
      change ofView (UnpackedFloat.mul Format.binary64 (view (withSignOf positiveInfinity x))
        (view (withSignOf 1.0 y))) = _
      rw [view_withSignOf, view_withSignOf, ht]
      rfl
    have hquotient : x / y = ofView (UnpackedFloat.div Format.binary64 (view x) (.zero t)) := by
      rw [← ht]
      rfl
    rw [if_pos hy, hquotient]
    by_cases hx : (x == 0.0 || x.isNaN) = true
    · rw [if_pos hx]
      rcases Bool.or_eq_true_iff.1 hx with hx | hx
      · obtain ⟨s, hs⟩ := beq_zero_iff.1 hx
        rw [hs]
        rfl
      · rw [isNaN_iff.1 hx]
        rfl
    · rw [if_neg hx, hproduct]
      rw [Bool.or_eq_true, beq_zero_iff, isNaN_iff] at hx
      cases hv : view x with
      | notANumber => exact absurd (.inr hv) hx
      | zero s => exact absurd (.inl ⟨s, hv⟩) hx
      | infinity s => rfl
      | finite s m e hm => rfl
  · rw [if_neg hy]

theorem remainder_eq (x y : Float) : remainder x y = Number.remainder x y := by
  rw [remainder]
  by_cases h : (y == 0.0 || x.isInf) = true
  · rw [if_pos h, Number.remainder]
    rcases Bool.or_eq_true_iff.1 h with hy | hx
    · obtain ⟨t, ht⟩ := beq_zero_iff.1 hy
      rw [ht]
      cases view x <;> rfl
    · obtain ⟨s, hs⟩ := isInf_iff.1 hx
      rw [hs]
      cases view y <;> rfl
  · rw [if_neg h]

/-! ## Rounding to an integer -/

theorem ofInteger_apply (s : Sign) {n : Nat} (hn : 0 < n) :
    ofInteger (s.apply n) = Number.round s n 0 := by
  change ofView (UnpackedFloat.normalize Format.binary64 (s.apply n) 0 .positive) = _
  rw [UnpackedFloat.normalize]
  cases s with
  | positive =>
    have hcompare : compare (Sign.positive.apply n) 0 = .gt := by
      rw [Int.compare_eq_gt]
      exact Int.natCast_pos.2 hn
    rw [hcompare]
    rfl
  | negative =>
    have hcompare : compare (Sign.negative.apply n) 0 = .lt := by
      rw [Int.compare_eq_lt]
      change -(n : Int) < 0
      omega
    rw [hcompare]
    change ofView (UnpackedFloat.round _ _ (- -(n : Int)).toNat 0) = _
    rw [Int.neg_neg]
    rfl

theorem integralMagnitude_lt (d : Direction) (s : Sign) {m : Nat} {e : Int} (hm : m < 2 ^ 53)
    (he : e < 0) : integralMagnitude d s m e < 2 ^ 53 := by
  rw [integralMagnitude, if_neg (by omega)]
  have hunit : 2 ≤ 2 ^ (-e).toNat := by
    have := Nat.pow_le_pow_right (show 0 < 2 by decide) (show 1 ≤ (-e).toNat by omega)
    exact this
  have hhalf : m / 2 ^ (-e).toNat ≤ m / 2 := Nat.div_le_div_left hunit (by decide)
  dsimp only
  split <;> omega

/-- By way of the integers a zero loses its minus sign, and nothing else is lost. -/
theorem throughInteger_eq (d : Direction) (x : Float) :
    throughInteger d x = if toIntegral d x = -0.0 then 0.0 else toIntegral d x := by
  have hminus : view (-0.0) = .zero .negative := rfl
  rw [throughInteger, toInteger?, toIntegral]
  cases hx : view x with
  | notANumber | infinity s =>
    have hne : x ≠ -0.0 := by
      intro h
      rw [h, hminus] at hx
      cases hx
    exact (if_neg hne).symm
  | zero s =>
    change (0.0 : Float) = if x = -0.0 then 0.0 else x
    by_cases h : x = -0.0
    · rw [if_pos h]
    · rw [if_neg h]
      apply view_inj
      cases s with
      | positive => exact hx.symm
      | negative => exact absurd (view_inj (hx.trans hminus.symm)) h
  | finite s m e hm =>
    have hrepresentable : Representable m e := by
      have := canonical_view x
      rwa [hx] at this
    by_cases he : 0 ≤ e
    · have hne : x ≠ -0.0 := by
        intro h
        rw [h, hminus] at hx
        cases hx
      have hscaled := round_scaled s hrepresentable e.toNat
      have hzero : e - (e.toNat : Int) = 0 := by omega
      rw [hzero] at hscaled
      have hpos : 0 < integralMagnitude d s m e := by
        rw [integralMagnitude, if_pos he]
        exact Nat.mul_pos hm (Nat.two_pow_pos _)
      simp only [if_pos he, if_neg hne]
      rw [ofInteger_apply s hpos, Number.round, integralMagnitude, if_pos he, hscaled]
      apply view_inj
      rw [view_ofView (u := .finite s m e hm) hrepresentable, hx]
    · simp only [if_neg he]
      have hlt := integralMagnitude_lt d s hrepresentable.mantissa_lt (show e < 0 by omega)
      generalize integralMagnitude d s m e = n at hlt
      by_cases hn : n = 0
      · subst hn
        cases s with
        | positive => rfl
        | negative => rfl
      · have hpos : 0 < n := Nat.pos_of_ne_zero hn
        have hne : Number.round s n 0 ≠ -0.0 := by
          intro h
          have hview := congrArg view h
          rw [Number.round, round_integer s hpos hlt,
            view_ofView (u := .finite s _ _ _) (representable_integer hpos hlt), hminus] at hview
          cases hview
        rw [if_neg hne, ofInteger_apply s hpos]

/-! ## Functions of the platform -/

/-- Where the C library has infinities: a bounded function has none at a finite number, `exp` has
    only positive ones there, a logarithm has its pole at zero, and a power has the sign of an odd
    power of its base. -/
structure Elementary.Conforms (c : Elementary) : Prop where
  bounded : ∀ f ∈ [c.sin, c.cos, c.tan, c.asin, c.acos], ∀ x, x.isFinite → (f x).isInf = false
  exp_overflow : ∀ x, x.isFinite → (c.exp x).isInf → c.exp x = positiveInfinity
  logarithm_pole : ∀ f ∈ [c.log, c.log10], ∀ x, x == 0.0 → f x = negativeInfinity
  logarithm_bounded : ∀ f ∈ [c.log, c.log10], ∀ x, x.isFinite → ¬ x == 0.0 → (f x).isInf = false
  pow_pole : ∀ x y, x == 0.0 → y.isFinite → y < 0.0 →
    c.pow x y = if isOddInteger y then withSignOf positiveInfinity x else positiveInfinity
  pow_zero_bounded : ∀ x y, x == 0.0 → y.isFinite → ¬ y < 0.0 → (c.pow x y).isInf = false
  pow_overflow : ∀ x y, x.isFinite → y.isFinite → ¬ x == 0.0 → (c.pow x y).isInf →
    c.pow x y = if x < 0.0 && isOddInteger y then negativeInfinity else positiveInfinity

/-- A guard takes a check back when the infinities are where it puts them. -/
theorem guarded_checked {logarithmic grows : Bool} {f : Float → Float} {x : Float}
    (hnan : (f x).isNaN → (logarithmic && x == 0.0) = false)
    (hinf : (f x).isInf → x.isFinite → grows ∧ f x = positiveInfinity ∨
      grows = false ∧ (logarithmic && x == 0.0) = true ∧ f x = negativeInfinity) :
    guarded logarithmic (checked grows f) x = f x := by
  rw [guarded, checked]
  by_cases hdomain : ((f x).isNaN && !x.isNaN) = true
  · have h := (Bool.and_eq_true_iff.1 hdomain).1
    simp only [if_pos hdomain, hnan h]
    exact (eq_notANumber h).symm
  · by_cases hinfinite : ((f x).isInf && x.isFinite) = true
    · obtain ⟨h, hfinite⟩ := Bool.and_eq_true_iff.1 hinfinite
      simp only [if_neg hdomain, if_pos hinfinite]
      rcases hinf h hfinite with ⟨rfl, heq⟩ | ⟨rfl, hpole, heq⟩
      · exact heq.symm
      · simp only [hpole]
        exact heq.symm
    · simp only [if_neg hdomain, if_neg hinfinite]

theorem guarded_bounded {f : Float → Float} (h : ∀ x, x.isFinite → (f x).isInf = false) :
    guarded false (checked false f) = f := by
  funext x
  refine guarded_checked (fun _ => rfl) fun hinf hx => ?_
  rw [h x hx] at hinf
  cases hinf

theorem guarded_exponential {f : Float → Float}
    (h : ∀ x, x.isFinite → (f x).isInf → f x = positiveInfinity) :
    guarded false (checked true f) = f := by
  funext x
  exact guarded_checked (fun _ => rfl) fun hinf hx => .inl ⟨rfl, h x hx hinf⟩

theorem guarded_logarithm {f : Float → Float} (hpole : ∀ x, x == 0.0 → f x = negativeInfinity)
    (h : ∀ x, x.isFinite → ¬ x == 0.0 → (f x).isInf = false) :
    guarded true (checked false f) = f := by
  funext x
  apply guarded_checked
  · intro hnan
    rw [Bool.true_and, Bool.eq_false_iff]
    intro hx
    rw [hpole x hx] at hnan
    cases hnan
  · intro hinf hfinite
    by_cases hx : x == 0.0
    · exact .inr ⟨rfl, hx, hpole x hx⟩
    · rw [h x hfinite hx] at hinf
      cases hinf

theorem sqrt_bounded (x : Float) (hx : x.isFinite) : x.sqrt.isInf = false := by
  have hroot : view x.sqrt = UnpackedFloat.sqrt Format.binary64 (view x) :=
    view_ofView (canonical_sqrt (canonical_view x))
  rw [Bool.eq_false_iff, ne_eq, isInf_iff, hroot]
  rintro ⟨t, ht⟩
  exact sqrt_ne_infinity hx t ht

theorem power_eq {c : Elementary} (h : c.Conforms) (x y : Float) : power c.pow x y = c.pow x y := by
  rw [power, checkedPower]
  by_cases hfinite : (x.isFinite && y.isFinite) = true
  · obtain ⟨hx, hy⟩ := Bool.and_eq_true_iff.1 hfinite
    have hdomain : (c.pow x y).isNaN ∨ (c.pow x y).isInf ∧ x == 0.0 →
        (if x == 0.0 && y < 0.0 then
          if isOddInteger y then withSignOf positiveInfinity x else positiveInfinity
        else notANumber) = c.pow x y := by
      intro hresult
      by_cases hpole : (x == 0.0 && y < 0.0) = true
      · obtain ⟨hzero, hneg⟩ := Bool.and_eq_true_iff.1 hpole
        rw [if_pos hpole, h.pow_pole x y hzero hy (of_decide_eq_true hneg)]
      · rw [if_neg hpole]
        rcases hresult with hnan | ⟨hinf, hzero⟩
        · exact (eq_notANumber hnan).symm
        · have hneg : ¬ y < 0.0 := by
            intro hneg
            exact hpole (Bool.and_eq_true_iff.2 ⟨hzero, decide_eq_true hneg⟩)
          rw [h.pow_zero_bounded x y hzero hy hneg] at hinf
          cases hinf
    simp only [if_pos hfinite]
    by_cases hnan : (c.pow x y).isNaN
    · simp only [if_pos hnan]
      exact hdomain (.inl hnan)
    · by_cases hinf : (c.pow x y).isInf
      · simp only [if_neg hnan, if_pos hinf]
        by_cases hzero : x == 0.0
        · simp only [if_pos hzero]
          exact hdomain (.inr ⟨hinf, hzero⟩)
        · simp only [if_neg hzero]
          exact (h.pow_overflow x y hx hy hzero hinf).symm
      · simp only [if_neg hnan, if_neg hinf]
  · simp only [if_neg hfinite]

end ArithCompiler.Math

import Mathlib
import ArithCompiler.Number.Binary

set_option autoImplicit false

/-!
# The views of doubles

Looking at a double loses nothing, and neither does making a double of a view that is the view of
one. The finite views are those whose mantissa fills its 53 bits unless the exponent is the least.
-/

namespace ArithCompiler.Number

open Float.Model (UnpackedFloat Format)
open Float.Model.UnpackedFloat

/-- The mantissas and exponents of the finite doubles other than zero. -/
structure Representable (m : Nat) (e : Int) : Prop where
  pos : 0 < m
  mantissa_lt : m < 2 ^ 53
  least_le : -1074 ≤ e
  le_greatest : e ≤ 971
  normal_or_least : 2 ^ 52 ≤ m ∨ e = -1074

def Canonical : UnpackedFloat → Prop
  | .finite _ m e _ => Representable m e
  | _ => True

theorem Representable.log2_lt {m : Nat} {e : Int} (h : Representable m e) : m.log2 < 53 :=
  (Nat.log2_lt (Nat.ne_of_gt h.pos)).2 h.mantissa_lt

theorem Representable.log2_eq_or_least {m : Nat} {e : Int} (h : Representable m e) :
    m.log2 = 52 ∨ e = -1074 := by
  rcases h.normal_or_least with hm | he
  · have hlow := (Nat.le_log2 (Nat.ne_of_gt h.pos)).2 hm
    have hhigh := h.log2_lt
    exact .inl (by omega)
  · exact .inr he

/-! ## The three fields of a bit pattern -/

theorem exists_packComponents (b : BitVec 64) :
    ∃ s E M, b = packComponents Format.binary64 s E M :=
  ⟨_, _, _,
    (@packComponents_unpackSign_unpackExponent_unpackMantissa Format.binary64 b).symm⟩

theorem toNat_one_append (M : BitVec 52) : (1#1 ++ M).toNat = 2 ^ 52 + M.toNat := by
  rw [BitVec.toNat_append, ← Nat.shiftLeft_add_eq_or_of_lt M.isLt]
  simp [Nat.shiftLeft_eq]

theorem unpack_infinity (s : Sign) :
    unpack Format.binary64 (packComponents Format.binary64 s (-1#11) 0#52) = .infinity s := by
  cases s <;> rfl

theorem unpack_zero (s : Sign) :
    unpack Format.binary64 (packComponents Format.binary64 s 0#11 0#52) = .zero s := by
  cases s <;> rfl

theorem unpack_notANumber (s : Sign) (M : BitVec 52) (hM : M ≠ 0#52) :
    unpack Format.binary64 (packComponents Format.binary64 s (-1#11) M) = .notANumber := by
  rw [unpack]
  simp only [unpackExponent_packComponents, unpackMantissa_packComponents]
  rw [if_pos trivial, if_neg hM]

theorem unpack_subnormal (s : Sign) (M : BitVec 52) (hM : 0 < M.toNat) :
    unpack Format.binary64 (packComponents Format.binary64 s 0#11 M)
      = .finite s M.toNat (-1074) hM := by
  have hne : M ≠ 0#52 := by
    rintro rfl
    exact absurd hM (by decide)
  rw [unpack]
  simp only [unpackExponent_packComponents, unpackMantissa_packComponents,
    unpackSign_packComponents, Sign.ofBitVec_toBitVec]
  rw [if_neg (by decide), if_pos trivial, dif_neg hne]
  rfl

theorem unpack_normal (s : Sign) (E : BitVec 11) (M : BitVec 52) (hzero : E ≠ 0#11)
    (htop : E ≠ -1#11) :
    unpack Format.binary64 (packComponents Format.binary64 s E M)
      = .finite s (2 ^ 52 + M.toNat) (E.toNat - 1075) (by omega) := by
  rw [unpack]
  simp only [unpackExponent_packComponents, unpackMantissa_packComponents,
    unpackSign_packComponents, Sign.ofBitVec_toBitVec, toNat_one_append]
  rw [if_neg htop, if_neg hzero]
  rfl

theorem pack_subnormal (s : Sign) (m : Nat) (hpos : 0 < m) (hm : m < 2 ^ 52) :
    pack Format.binary64 (.finite s m (-1074) hpos)
      = packComponents Format.binary64 s 0#11 (BitVec.ofNat 52 m) := by
  have hlog : m.log2 < 52 := (Nat.log2_lt (Nat.ne_of_gt hpos)).2 hm
  rw [pack]
  simp only
  rw [if_neg (by decide), if_neg (by change ¬ m.log2 + 1 = 53; omega)]

theorem pack_normal (s : Sign) (m : Nat) (e : Int) (hpos : 0 < m) (hlog : m.log2 = 52)
    (hleast : -1074 ≤ e) (hgreatest : e ≤ 971) :
    pack Format.binary64 (.finite s m e hpos)
      = packComponents Format.binary64 s (BitVec.ofNat 11 (e + 1075).toNat)
        (BitVec.ofNat 52 m) := by
  have hbiased : e + Format.binary64.exponentBias + Format.binary64.mantissaBitsWithoutImplicit
      = e + 1075 := by
    change e + 1023 + 52 = e + 1075
    omega
  rw [pack]
  simp only [hbiased]
  rw [if_neg (by omega), if_pos (by rw [hlog]; rfl)]

/-! ## There and back -/

theorem biased_bounds {E : BitVec 11} (hzero : E ≠ 0#11) (htop : E ≠ -1#11) :
    0 < E.toNat ∧ E.toNat < 2047 := by
  have hlt := E.isLt
  constructor
  · rw [Nat.pos_iff_ne_zero]
    intro h
    exact hzero (BitVec.eq_of_toNat_eq h)
  · have hne : E.toNat ≠ 2047 := fun h => htop (BitVec.eq_of_toNat_eq h)
    omega

theorem canonical_unpack (b : BitVec 64) : Canonical (unpack Format.binary64 b) := by
  obtain ⟨s, E, M, rfl⟩ := exists_packComponents b
  have hlt : M.toNat < 2 ^ 52 := M.isLt
  by_cases htop : E = -1#11
  · subst htop
    by_cases hM : M = 0#52
    · subst hM
      rw [unpack_infinity]
      trivial
    · rw [unpack_notANumber s M hM]
      trivial
  · by_cases hzero : E = 0#11
    · subst hzero
      by_cases hM : M = 0#52
      · subst hM
        rw [unpack_zero]
        trivial
      · have hpos : 0 < M.toNat := by
          rw [Nat.pos_iff_ne_zero]
          intro h
          exact hM (BitVec.eq_of_toNat_eq h)
        rw [unpack_subnormal s M hpos]
        exact ⟨hpos, by omega, by omega, by omega, .inr rfl⟩
    · have hE := biased_bounds hzero htop
      rw [unpack_normal s E M hzero htop]
      exact ⟨by omega, by omega, by omega, by omega, .inl (by omega)⟩

theorem canonical_view (x : Float) : Canonical (view x) := canonical_unpack _

@[simp]
theorem representable_of_view {x : Float} {s : Sign} {m : Nat} {e : Int} {hm : 0 < m}
    (hx : view x = .finite s m e hm) : Representable m e := by
  have h := canonical_view x
  rwa [hx] at h

theorem ofView_view (x : Float) : ofView (view x) = x := by
  obtain ⟨⟨bits, valid⟩⟩ := x
  have h := pack_unpack_of_valid valid
  simp only [ofView, view, Float.Model.pack, Float.Model.unpack, h]

@[simp]
theorem view_ofView {u : UnpackedFloat} (h : Canonical u) : view (ofView u) = u := by
  change unpack Format.binary64 (pack Format.binary64 u) = u
  cases u with
  | infinity s => cases s <;> rfl
  | notANumber => rfl
  | zero s => cases s <;> rfl
  | finite s m e hpos =>
    by_cases hm : m < 2 ^ 52
    · obtain rfl : e = -1074 := h.normal_or_least.resolve_left (by omega)
      have hback : (BitVec.ofNat 52 m).toNat = m := by
        rw [BitVec.toNat_ofNat, Nat.mod_eq_of_lt hm]
      rw [pack_subnormal s m hpos hm, unpack_subnormal s _ (by rw [hback]; exact hpos)]
      simp only [hback]
    · have hlt := h.mantissa_lt
      have hleast := h.least_le
      have hgreatest := h.le_greatest
      have hlog : m.log2 = 52 := (Nat.log2_eq_iff (by omega)).2 ⟨by omega, by omega⟩
      have hE : (BitVec.ofNat 11 (e + 1075).toNat).toNat = (e + 1075).toNat := by
        rw [BitVec.toNat_ofNat, Nat.mod_eq_of_lt (by omega)]
      have hzero : BitVec.ofNat 11 (e + 1075).toNat ≠ 0#11 := by
        intro h0
        rw [h0] at hE
        change 0 = _ at hE
        omega
      have htop : BitVec.ofNat 11 (e + 1075).toNat ≠ -1#11 := by
        intro h1
        rw [h1] at hE
        change 2047 = _ at hE
        omega
      have hmantissa : 2 ^ 52 + (BitVec.ofNat 52 m).toNat = m := by
        rw [BitVec.toNat_ofNat]
        omega
      have hexponent : ((e + 1075).toNat : Int) - 1075 = e := by omega
      rw [pack_normal s m e hpos hlog hleast hgreatest, unpack_normal s _ _ hzero htop]
      simp only [hmantissa, hE, hexponent]

/-! ## Signs -/

theorem Canonical.neg {u : UnpackedFloat} (h : Canonical u) : Canonical u.neg := by
  cases u <;> exact h

theorem Canonical.abs {u : UnpackedFloat} (h : Canonical u) : Canonical u.abs := by
  cases u <;> exact h

@[simp]
theorem view_neg (x : Float) : view (-x) = (view x).neg := view_ofView (canonical_view x).neg

@[simp]
theorem view_abs (x : Float) : view x.abs = (view x).abs := view_ofView (canonical_view x).abs

theorem view_inj {x y : Float} (h : view x = view y) : x = y := by
  rw [← ofView_view x, h, ofView_view]

theorem isNegative_iff (x : Float) : isNegative x ↔ signOf (view x) = .negative := by
  unfold isNegative
  split <;> simp_all

theorem neg_abs_of_isNegative {x : Float} (h : isNegative x) : -x.abs = x := by
  apply view_inj
  rw [isNegative_iff] at h
  rw [view_neg, view_abs]
  cases hx : view x <;> rw [hx] at h <;> simp only [signOf] at h <;> cases h <;> rfl

theorem abs_of_not_isNegative {x : Float} (h : isNegative x = false) : x.abs = x := by
  apply view_inj
  have hs : signOf (view x) ≠ .negative := by
    rw [ne_eq, ← isNegative_iff, h]
    simp
  rw [view_abs]
  cases hx : view x with
  | notANumber => rfl
  | infinity s | zero s | finite s m e hm =>
    rw [hx] at hs
    cases s with
    | positive => rfl
    | negative => exact absurd rfl hs

end ArithCompiler.Number

import ArithCompiler.Number.Decimal
import ArithCompiler.Number.Integral
import ArithCompiler.Proofs.Number.Rounding

set_option autoImplicit false

/-!
# Kinds of doubles

The tests for what is not a number, for infinities and for zeros, in terms of the view, and the
operations whose results depend on these only.
-/

namespace ArithCompiler.Number

open Float.Model (UnpackedFloat Format)
open Float.Model.UnpackedFloat (Sign)

theorem isNaN_iff {x : Float} : x.isNaN ↔ view x = .notANumber :=
  UnpackedFloat.isNaN_iff

theorem isInf_iff {x : Float} : x.isInf ↔ ∃ s, view x = .infinity s := by
  change (view x).isInf ↔ _
  cases view x <;> simp [UnpackedFloat.isInf]

theorem beq_zero_iff {x : Float} : x == 0.0 ↔ ∃ s, view x = .zero s := by
  change (view x).beq (.zero .positive) ↔ _
  rw [UnpackedFloat.beq_iff_ne_notANumber_and_eq]
  cases view x with
  | zero s => cases s <;> simp
  | notANumber | infinity s | finite s m e hm => simp

theorem view_notANumber : view notANumber = .notANumber := view_ofView (u := .notANumber) trivial

/-- There is one double that is not a number. -/
theorem eq_notANumber {x : Float} (h : x.isNaN) : x = notANumber := by
  apply view_inj
  rw [isNaN_iff.1 h, view_notANumber]

theorem view_withSignOf (x y : Float) :
    view (withSignOf x y) = match view x with
      | .notANumber => .notANumber
      | .infinity _ => .infinity (signOf (view y))
      | .zero _ => .zero (signOf (view y))
      | .finite _ m e hm => .finite (signOf (view y)) m e hm := by
  have hsign := isNegative_iff y
  rw [withSignOf]
  by_cases hy : isNegative y
  · rw [if_pos hy, view_neg, view_abs, hsign.1 hy]
    cases view x <;> rfl
  · have hpos : signOf (view y) = .positive := by
      cases h : signOf (view y) with
      | positive => rfl
      | negative => exact absurd (hsign.2 h) hy
    rw [if_neg hy, view_abs, hpos]
    cases view x <;> rfl

/-! ## Decimals are numbers -/

theorem isNaN_neg {x : Float} : (-x).isNaN ↔ x.isNaN := by
  rw [isNaN_iff, isNaN_iff, view_neg]
  cases view x <;> simp [UnpackedFloat.neg]

theorem unpack_ne_notANumber (s : Sign) {E : BitVec 11} (M : BitVec 52) (h : E ≠ -1#11) :
    UnpackedFloat.unpack Format.binary64 (UnpackedFloat.packComponents Format.binary64 s E M) ≠
      .notANumber := by
  rw [UnpackedFloat.unpack]
  simp only [UnpackedFloat.unpackExponent_packComponents]
  rw [if_neg h]
  intro hunpack
  split at hunpack
  · split at hunpack <;> cases hunpack
  · cases hunpack

/-- What is too large for a double becomes an infinity when it is packed. -/
theorem view_ofView_ne_notANumber {u : UnpackedFloat} (h : u ≠ .notANumber) :
    view (ofView u) ≠ .notANumber := by
  cases u with
  | notANumber => exact absurd rfl h
  | infinity s =>
    rw [view_ofView (u := .infinity s) trivial]
    nofun
  | zero s =>
    rw [view_ofView (u := .zero s) trivial]
    nofun
  | finite s m e hm =>
    change UnpackedFloat.unpack Format.binary64 (UnpackedFloat.pack Format.binary64 _) ≠ _
    rw [UnpackedFloat.pack]
    dsimp only
    split
    · cases s <;> nofun
    · rename_i hbiased
      split
      · refine unpack_ne_notANumber s _ ?_
        intro htop
        have hnat := congrArg BitVec.toNat htop
        change _ % 2 ^ 11 = 2047 at hnat
        change ¬ 2 ^ 11 ≤ _ at hbiased
        omega
      · exact unpack_ne_notANumber s _ (by decide)

theorem roundWithAccuracy_ne_notANumber (s : Sign) (m : Nat) (e : Int)
    (accuracy : UnpackedFloat.Accuracy) :
    UnpackedFloat.roundWithAccuracy Format.binary64 s m e accuracy ≠ .notANumber := by
  rw [UnpackedFloat.roundWithAccuracy]
  dsimp only
  intro h
  split at h <;> cases h

theorem ofScientific_ne_notANumber (m : Nat) (e : Int) :
    UnpackedFloat.ofScientific Format.binary64 m e ≠ .notANumber := by
  rw [UnpackedFloat.ofScientific]
  intro h
  split at h
  · cases h
  · split at h
    · cases h
    · split at h
      · cases h
      · split at h <;> exact roundWithAccuracy_ne_notANumber _ _ _ _ h

theorem not_isNaN_of_ofNumeral? {cs : List Char} {v : Float} (h : ofNumeral? cs = some v) :
    ¬ v.isNaN := by
  obtain ⟨d, -, rfl⟩ := Option.map_eq_some_iff.1 h
  rw [isNaN_iff]
  exact view_ofView_ne_notANumber (ofScientific_ne_notANumber d.digits d.exponent)

end ArithCompiler.Number

import ArithCompiler.Proofs.Math.Host
import ArithCompiler.Proofs.Number.Remainder

set_option autoImplicit false

/-!
# The functions of the C library come back

The standard of C says where its functions have infinities, and of which sign. A host raises instead
of giving these, and instead of giving what is not a number. Whatever it raises there, the functions
of the interpreter give what the C library gives, with the sign of every zero and of every infinity.
-/

namespace ArithCompiler.Math

open Number (IsOdd IsRemainder isNegative isOddInteger notANumber positiveInfinity negativeInfinity
  rational? withSignOf)

/-- What the standard of C says of the elementary functions, in terms of the numbers that finite
    doubles are. Where a power overflows it has the sign of the exact power. -/
structure Elementary.Standard (c : Elementary) : Prop where
  bounded : ∀ f ∈ [c.sin, c.cos, c.tan, c.asin, c.acos], ∀ x, x.isFinite → ¬ (f x).isInf
  exp_sign : ∀ x, ¬ isNegative (c.exp x)
  logarithm_zero : ∀ f ∈ [c.log, c.log10], ∀ x, rational? x = some 0 → f x = negativeInfinity
  logarithm_bounded : ∀ f ∈ [c.log, c.log10], ∀ x q, rational? x = some q → q ≠ 0 → ¬ (f x).isInf
  pow_by_zero : ∀ x y, rational? y = some 0 → c.pow x y = 1.0
  pow_of_zero : ∀ x y q, rational? x = some 0 → rational? y = some q → 0 < q →
    rational? (c.pow x y) = some 0
  pow_pole_odd : ∀ x y q, rational? x = some 0 → rational? y = some q → q < 0 → IsOdd q →
    c.pow x y = withSignOf positiveInfinity x
  pow_pole : ∀ x y q, rational? x = some 0 → rational? y = some q → q < 0 → ¬ IsOdd q →
    c.pow x y = positiveInfinity
  pow_pole_infinite : ∀ x, rational? x = some 0 → c.pow x negativeInfinity = positiveInfinity
  pow_fraction : ∀ x y p q, rational? x = some p → rational? y = some q → p < 0 →
    (∀ n : Int, q ≠ n) → (c.pow x y).isNaN
  pow_sign : ∀ x y p q, rational? x = some p → rational? y = some q → 0 < p →
    ¬ isNegative (c.pow x y)
  pow_sign_integer : ∀ x y p, ∀ n : Int, rational? x = some p → rational? y = some (n : ℚ) → p ≠ 0 →
    (c.pow x y).isInf → (isNegative (c.pow x y) ↔ p ^ n < 0)

/-- The outcomes of a function of the host where the one of the C library gives `z`: its value, an
    overflow where finite arguments have an infinite value, or a domain error where the value is not
    a number although the arguments are, or at a pole. -/
inductive Reports (args : List Float) (pole : Prop) (z : Float) : Except Raised Float → Prop
  | value : Reports args pole z (.ok z)
  | overflow : (∀ x ∈ args, x.isFinite) → z.isInf → ¬ pole → Reports args pole z (.error .overflow)
  | domain : (∀ x ∈ args, ¬ x.isNaN) → z.isNaN → Reports args pole z (.error .domain)
  | pole : pole → Reports args pole z (.error .domain)

def Primitives.plain (p : Primitives) (c : Elementary) :
    List ((Float → Except Raised Float) × (Float → Float)) :=
  [(p.sin, c.sin), (p.cos, c.cos), (p.tan, c.tan), (p.asin, c.asin), (p.acos, c.acos),
    (p.exp, c.exp), (p.sqrt, Float.sqrt)]

def Primitives.logarithms (p : Primitives) (c : Elementary) :
    List ((Float → Except Raised Float) × (Float → Float)) :=
  [(p.log, c.log), (p.log10, c.log10)]

/-- The host multiplies and divides as doubles do, unless by zero, and its functions report the
    faults of the C library. Logarithms have a pole at zero, and powers of zero where the exponent is
    negative. -/
structure Primitives.Mirrors (p : Primitives) (c : Elementary) (fmod : Float → Float → Float) :
    Prop where
  multiplies : ∀ x y, p.operate .multiply x y = .ok (x * y)
  divides : ∀ x y, ¬ y == 0.0 → p.operate .divide x y = .ok (x / y)
  plain : ∀ q ∈ p.plain c, ∀ x, Reports [x] False (q.2 x) (q.1 x)
  logarithms : ∀ q ∈ p.logarithms c, ∀ x, Reports [x] (x == 0.0) (q.2 x) (q.1 x)
  pow : ∀ x y, Reports [x, y] (x == 0.0 ∧ y < 0.0) (c.pow x y) (p.pow x y)
  fmod : ∀ x y, Reports [x, y] False (fmod x y) (p.fmod x y)

/-! ## Infinities of the standard -/

theorem eq_positiveInfinity {x : Float} (h : x.isInf) (hs : ¬ isNegative x) :
    x = positiveInfinity := by
  obtain ⟨s, hview⟩ := Number.isInf_iff.1 h
  rw [Number.isNegative_iff, hview] at hs
  cases s with
  | positive => exact Number.view_inj hview
  | negative => exact absurd rfl hs

theorem eq_negativeInfinity {x : Float} (h : x.isInf) (hs : isNegative x) :
    x = negativeInfinity := by
  obtain ⟨s, hview⟩ := Number.isInf_iff.1 h
  rw [Number.isNegative_iff, hview] at hs
  cases s with
  | positive => cases hs
  | negative => exact Number.view_inj hview

theorem not_isNaN_of_isInf {x : Float} (h : x.isInf) : ¬ x.isNaN := by
  obtain ⟨s, hview⟩ := Number.isInf_iff.1 h
  rw [Number.isNaN_iff, hview]
  nofun

theorem not_isInf_of_rational? {x : Float} {q : ℚ} (h : rational? x = some q) : ¬ x.isInf :=
  not_isInf_of_isFinite (Number.isFinite_iff_rational?.2 ⟨q, h⟩)

theorem not_isNaN_of_isFinite {x : Float} (h : x.isFinite) : ¬ x.isNaN := by
  rw [Number.isNaN_iff]
  intro hview
  change (Number.view x).isFinite = true at h
  rw [hview] at h
  cases h

theorem isOdd_intCast (n : Int) : IsOdd n ↔ Odd n := by
  constructor
  · rintro ⟨k, hk, hcast⟩
    obtain rfl : n = k := by exact_mod_cast hcast
    exact hk
  · exact fun h => ⟨n, h, rfl⟩

theorem isOddInteger_iff_isOdd {y : Float} {q : ℚ} (hy : rational? y = some q) :
    isOddInteger y ↔ IsOdd q := by
  rw [Number.isOddInteger_iff_rational?, hy]
  simp

namespace Elementary.Standard

variable {c : Elementary} (h : c.Standard)
include h

/-- What is so for every function that is finite at finite doubles is so for these. -/
theorem forall_bounded {P : (Float → Float) → Prop}
    (hP : ∀ f : Float → Float, (∀ x, x.isFinite → ¬ (f x).isInf) → P f) :
    P c.sin ∧ P c.cos ∧ P c.tan ∧ P c.asin ∧ P c.acos ∧ P Float.sqrt := by
  have hlisted : ∀ f ∈ [c.sin, c.cos, c.tan, c.asin, c.acos], P f :=
    fun f hf => hP f (h.bounded f hf)
  have hsqrt : P Float.sqrt := hP _ fun x hx => by simpa using sqrt_bounded x hx
  simp only [List.forall_mem_cons] at hlisted
  obtain ⟨hsin, hcos, htan, hasin, hacos, -⟩ := hlisted
  exact ⟨hsin, hcos, htan, hasin, hacos, hsqrt⟩

/-- The sign of an infinite power is that of an odd power of a negative number. -/
theorem pow_overflow {x y : Float} {p q : ℚ} (hx : rational? x = some p) (hy : rational? y = some q)
    (hp : p ≠ 0) (hinf : (c.pow x y).isInf) :
    c.pow x y = if x < 0.0 && isOddInteger y then negativeInfinity else positiveInfinity := by
  rcases lt_or_gt_of_ne hp with hneg | hpos
  · obtain ⟨n, rfl⟩ : ∃ n : Int, q = n := by
      by_contra hfraction
      have hnan := h.pow_fraction x y p q hx hy hneg fun n hn => hfraction ⟨n, hn⟩
      exact not_isNaN_of_isInf hinf hnan
    have hsign := h.pow_sign_integer x y p n hx hy hp hinf
    have hless : x < 0.0 := (Number.lt_zero_iff_rational? hx).2 hneg
    have hodd := (isOddInteger_iff_isOdd hy).trans (isOdd_intCast n)
    by_cases hn : Odd n
    · rw [if_pos (by simp [hless, hodd.2 hn])]
      exact eq_negativeInfinity hinf (hsign.2 (hn.zpow_neg hneg))
    · rw [if_neg (by simp [hodd, hn])]
      refine eq_positiveInfinity hinf fun hnegative => ?_
      have heven := (Int.not_odd_iff_even.1 hn).zpow_pos hp
      exact absurd (hsign.1 hnegative) heven.not_gt
  · have hless : ¬ x < 0.0 := fun hx' =>
      absurd ((Number.lt_zero_iff_rational? hx).1 hx') hpos.not_gt
    rw [if_neg (by simp [hless])]
    exact eq_positiveInfinity hinf (h.pow_sign x y p q hx hy hpos)

theorem conforms : c.Conforms where
  bounded f hf x hx := by simpa using h.bounded f hf x hx
  exp_overflow x _ hinf := eq_positiveInfinity hinf (h.exp_sign x)
  logarithm_pole f hf x hx := h.logarithm_zero f hf x (Number.beq_zero_iff_rational?.1 hx)
  logarithm_bounded f hf x hx hzero := by
    obtain ⟨q, hq⟩ := Number.isFinite_iff_rational?.1 hx
    have hne : q ≠ 0 := fun h0 => hzero (Number.beq_zero_iff_rational?.2 (h0 ▸ hq))
    simpa using h.logarithm_bounded f hf x q hq hne
  pow_pole x y hx hy hless := by
    obtain ⟨q, hq⟩ := Number.isFinite_iff_rational?.1 hy
    have hneg := (Number.lt_zero_iff_rational? hq).1 hless
    have hzero := Number.beq_zero_iff_rational?.1 hx
    by_cases hodd : IsOdd q
    · rw [if_pos ((isOddInteger_iff_isOdd hq).2 hodd)]
      exact h.pow_pole_odd x y q hzero hq hneg hodd
    · rw [if_neg fun h' => hodd ((isOddInteger_iff_isOdd hq).1 h')]
      exact h.pow_pole x y q hzero hq hneg hodd
  pow_zero_bounded x y hx hy hless := by
    obtain ⟨q, hq⟩ := Number.isFinite_iff_rational?.1 hy
    have hnonneg : 0 ≤ q := not_lt.1 fun h' => hless ((Number.lt_zero_iff_rational? hq).2 h')
    rcases hnonneg.eq_or_lt with rfl | hpos
    · rw [h.pow_by_zero x y hq]
      decide
    · have hzero := h.pow_of_zero x y q (Number.beq_zero_iff_rational?.1 hx) hq hpos
      simpa using not_isInf_of_rational? hzero
  pow_overflow x y hx hy hzero hinf := by
    obtain ⟨p, hp⟩ := Number.isFinite_iff_rational?.1 hx
    obtain ⟨q, hq⟩ := Number.isFinite_iff_rational?.1 hy
    have hne : p ≠ 0 := fun h0 => hzero (Number.beq_zero_iff_rational?.2 (h0 ▸ hp))
    exact h.pow_overflow hp hq hne hinf

theorem pow_at_pole {x y : Float} (hx : x == 0.0) (hy : y < 0.0) :
    c.pow x y = if isOddInteger y then withSignOf positiveInfinity x else positiveInfinity := by
  by_cases hfinite : y.isFinite
  · exact h.conforms.pow_pole x y hx hfinite hy
  · have hview : Number.view y = .infinity .negative := by
      have hless : (Number.view y).lt (.zero .positive) = true := decide_eq_true_iff.1 hy
      change ¬ (Number.view y).isFinite = true at hfinite
      cases hview : Number.view y with
      | zero s | finite s m e hm =>
        rw [hview] at hfinite
        exact absurd rfl hfinite
      | notANumber =>
        rw [hview] at hless
        cases hless
      | infinity s =>
        rw [hview] at hless
        cases s with
        | positive => cases hless
        | negative => rfl
    have hodd : ¬ isOddInteger y := by
      rw [isOddInteger, hview]
      exact Bool.false_ne_true
    have hinfinite : y = negativeInfinity := Number.view_inj hview
    rw [if_neg hodd, hinfinite]
    exact h.pow_pole_infinite x (Number.beq_zero_iff_rational?.1 hx)

end Elementary.Standard

/-! ## Reports are taken back -/

theorem Reports.retaken {logarithmic : Bool} {f : Float → Except Raised Float} {x z : Float}
    {pole : Prop} (h : Reports [x] pole z (f x)) (hpole : pole ↔ (logarithmic && x == 0.0) = true)
    (hz : pole → z = negativeInfinity)
    (hinf : x.isFinite → z.isInf → ¬ pole → z = positiveInfinity) :
    retaken logarithmic f x = .ok z := by
  rw [Math.retaken]
  generalize f x = outcome at h
  cases h with
  | value => rfl
  | overflow hfinite hinfinite hp =>
    rw [hinf (hfinite x (List.mem_singleton.2 rfl)) hinfinite hp]
  | domain _ hnan =>
    by_cases hp : (logarithmic && x == 0.0) = true
    · simp only [if_pos hp, hz (hpole.2 hp)]
    · simp only [if_neg hp, Number.eq_notANumber hnan]
  | pole hp => simp only [if_pos (hpole.1 hp), hz hp]

theorem host_fmod (c : Elementary) {x y : Float} (hx : ¬ x.isInf) (hy : ¬ y == 0.0) :
    c.host.fmod x y = .ok (Number.remainder x y) := by
  refine if_neg fun h => ?_
  simp only [Bool.and_eq_true, Bool.or_eq_true] at h
  exact h.1.1.elim hx hy

namespace Primitives.Mirrors

variable {p : Primitives} {c : Elementary} {fmod : Float → Float → Float} (h : p.Mirrors c fmod)
include h

theorem quotient (x y : Float) : p.quotient x y = .ok (x / y) := by
  rw [← quotient_eq, Primitives.quotient, Math.quotient]
  by_cases hy : y == 0.0
  · rw [if_pos hy, if_pos hy]
    by_cases hx : (x == 0.0 || x.isNaN) = true
    · rw [if_pos hx, if_pos hx]
    · rw [if_neg hx, if_neg hx, h.multiplies]
  · rw [if_neg hy, if_neg hy]
    exact h.divides x y hy

variable (hfmod : IsRemainder fmod)
include hfmod

/-- A remainder is finite, so there is nothing to report. -/
theorem fmod_eq {x y : Float} (hx : ¬ x.isInf) (hy : ¬ y == 0.0) : p.fmod x y = .ok (fmod x y) := by
  have hreports := h.fmod x y
  generalize p.fmod x y = outcome at hreports
  cases hreports with
  | value => rfl
  | pole hpole => exact hpole.elim
  | overflow hfinite hinf =>
    have hx' := not_isNaN_of_isFinite (hfinite x (by simp))
    have hy' := not_isNaN_of_isFinite (hfinite y (by simp))
    have hresult := hfmod.isFinite (x := x) (y := y) (by tauto)
    exact absurd hinf (not_isInf_of_isFinite hresult)
  | domain hnumbers hnan =>
    have hx' := hnumbers x (by simp)
    have hy' := hnumbers y (by simp)
    have hresult := hfmod.isFinite (x := x) (y := y) (by tauto)
    exact absurd hnan (not_isNaN_of_isFinite hresult)

theorem remainder (x y : Float) : p.remainder x y = .ok (fmod x y) := by
  rw [Primitives.remainder]
  by_cases hxy : (y == 0.0 || x.isInf) = true
  · have hinvalid : x.isNaN ∨ x.isInf ∨ y.isNaN ∨ y == 0.0 := by
      rcases Bool.or_eq_true_iff.1 hxy with hy | hx
      · exact .inr (.inr (.inr hy))
      · exact .inr (.inl hx)
    rw [if_pos hxy, Number.eq_notANumber (hfmod.invalid x y hinvalid)]
  · rw [if_neg hxy]
    rw [Bool.or_eq_true, not_or] at hxy
    exact h.fmod_eq hfmod hxy.2 hxy.1

theorem isOddInteger (y : Float) : p.isOddInteger y = .ok (Number.isOddInteger y) := by
  rw [← host_isOddInteger c, Primitives.isOddInteger, Primitives.isOddInteger]
  by_cases hy : y.isFinite
  · have htwo : ¬ (2.0 : Float) == 0.0 := by decide
    have hfmod' := h.fmod_eq hfmod (not_isInf_of_isFinite hy) htwo
    rw [hfmod.unique Number.remainder_isRemainder] at hfmod'
    have hhost : c.host.fmod y 2.0 = .ok (Number.remainder y 2.0) :=
      host_fmod c (not_isInf_of_isFinite hy) htwo
    rw [hfmod', hhost]
  · rw [if_neg hy, if_neg hy]

theorem power (hc : c.Standard) (x y : Float) : p.power x y = .ok (c.pow x y) := by
  have hreports := h.pow x y
  rw [Primitives.power, h.isOddInteger hfmod]
  generalize p.pow x y = outcome at hreports
  -- a domain error says only that one of these is the case
  have hdomain (hresult : (c.pow x y).isNaN ∨ x == 0.0 ∧ y < 0.0) :
      (if x == 0.0 && y < 0.0 then
        if Number.isOddInteger y then withSignOf positiveInfinity x else positiveInfinity
      else notANumber) = c.pow x y := by
    by_cases hpole : (x == 0.0 && y < 0.0) = true
    · obtain ⟨hx, hy⟩ := Bool.and_eq_true_iff.1 hpole
      rw [if_pos hpole, hc.pow_at_pole hx (of_decide_eq_true hy)]
    · rw [if_neg hpole]
      rcases hresult with hnan | ⟨hx, hy⟩
      · exact (Number.eq_notANumber hnan).symm
      · exact absurd (Bool.and_eq_true_iff.2 ⟨hx, decide_eq_true hy⟩) hpole
  cases hreports with
  | value => rfl
  | domain _ hnan =>
    rw [← hdomain (.inl hnan)]
    exact (apply_ite Except.ok _ _ _).symm
  | pole hpole =>
    rw [← hdomain (.inr hpole)]
    exact (apply_ite Except.ok _ _ _).symm
  | overflow hfinite hinf hpole =>
    have hx := hfinite x (by simp)
    have hy := hfinite y (by simp)
    have hne : ¬ x == 0.0 := by
      intro hzero
      have hless : ¬ y < 0.0 := fun hless => hpole ⟨hzero, hless⟩
      rw [hc.conforms.pow_zero_bounded x y hzero hy hless] at hinf
      cases hinf
    rw [hc.conforms.pow_overflow x y hx hy hne hinf]
    by_cases hless : x < 0.0
    · refine (if_pos hless).trans (congrArg Except.ok ?_)
      simp [hless]
    · refine (if_neg hless).trans (congrArg Except.ok ?_)
      simp [hless]

omit hfmod

theorem plain_retaken (hc : c.Standard) :
    ∀ q ∈ p.plain c, ∀ x, retaken false q.1 x = .ok (q.2 x) := by
  have hinf : ∀ q ∈ p.plain c, ∀ x, x.isFinite → (q.2 x).isInf → q.2 x = positiveInfinity := by
    obtain ⟨hsin, hcos, htan, hasin, hacos, hsqrt⟩ := hc.forall_bounded
      (P := fun f => ∀ x, x.isFinite → (f x).isInf → f x = positiveInfinity)
      fun f hf x hx hinf => absurd hinf (hf x hx)
    simp only [Primitives.plain, List.forall_mem_cons]
    exact ⟨hsin, hcos, htan, hasin, hacos, hc.conforms.exp_overflow, hsqrt,
      List.forall_mem_nil _⟩
  intro q hq x
  exact (h.plain q hq x).retaken (by simp) False.elim fun hx hz _ => hinf q hq x hx hz

theorem logarithms_retaken (hc : c.Standard) :
    ∀ q ∈ p.logarithms c, ∀ x, retaken true q.1 x = .ok (q.2 x) := by
  have hmem : ∀ q ∈ p.logarithms c, q.2 ∈ [c.log, c.log10] := by
    simp [Primitives.logarithms]
  intro q hq x
  refine (h.logarithms q hq x).retaken (by simp) (hc.conforms.logarithm_pole q.2 (hmem q hq) x) ?_
  intro hx hinf hzero
  rw [hc.conforms.logarithm_bounded q.2 (hmem q hq) x hx hzero] at hinf
  cases hinf

end Primitives.Mirrors

/-! ## The host of the routines -/

theorem reports_checked {grows : Bool} {f : Float → Float} {x : Float} {pole : Prop}
    (hinf : x.isFinite → (f x).isInf → grows = true ∧ ¬ pole ∨ grows = false ∧ pole) :
    Reports [x] pole (f x) ((checked grows f x).mapError .ofFault) := by
  rw [checked]
  by_cases hnan : ((f x).isNaN && !x.isNaN) = true
  · obtain ⟨hnan', hx⟩ := Bool.and_eq_true_iff.1 hnan
    simp only [if_pos hnan]
    exact .domain (by simpa using hx) hnan'
  · by_cases hinfinite : ((f x).isInf && x.isFinite) = true
    · obtain ⟨hinf', hx⟩ := Bool.and_eq_true_iff.1 hinfinite
      simp only [if_neg hnan, if_pos hinfinite]
      rcases hinf hx hinf' with ⟨rfl, hpole⟩ | ⟨rfl, hpole⟩
      · exact .overflow (by simpa using hx) hinf' hpole
      · exact .pole hpole
    · simp only [if_neg hnan, if_neg hinfinite]
      exact .value

theorem host_mirrors {c : Elementary} (h : c.Standard) : c.host.Mirrors c Number.remainder where
  multiplies _ _ := rfl
  divides _ _ hy := if_neg hy
  plain := by
    obtain ⟨hsin, hcos, htan, hasin, hacos, hsqrt⟩ := h.forall_bounded
      (P := fun f => ∀ x, Reports [x] False (f x) ((checked false f x).mapError .ofFault))
      fun f hf x => reports_checked fun hx hinf => absurd hinf (hf x hx)
    have hexp (x : Float) :
        Reports [x] False (c.exp x) ((checked true c.exp x).mapError .ofFault) :=
      reports_checked fun _ _ => .inl ⟨rfl, not_false⟩
    simp only [Primitives.plain, List.forall_mem_cons]
    exact ⟨hsin, hcos, htan, hasin, hacos, hexp, hsqrt, List.forall_mem_nil _⟩
  logarithms := by
    have hlogarithm (f : Float → Float) (hf : f ∈ [c.log, c.log10]) (x : Float) :
        Reports [x] (x == 0.0) (f x) ((checked false f x).mapError .ofFault) := by
      refine reports_checked fun hx hinf => .inr ⟨rfl, ?_⟩
      by_contra hzero
      rw [h.conforms.logarithm_bounded f hf x hx hzero] at hinf
      cases hinf
    simp only [Primitives.logarithms, List.forall_mem_cons]
    exact ⟨hlogarithm c.log (by simp), hlogarithm c.log10 (by simp), List.forall_mem_nil _⟩
  pow x y := by
    change Reports _ _ _ ((checkedPower c.pow x y).mapError .ofFault)
    rw [checkedPower]
    by_cases hfinite : (x.isFinite && y.isFinite) = true
    · obtain ⟨hx, hy⟩ := Bool.and_eq_true_iff.1 hfinite
      simp only [if_pos hfinite]
      by_cases hnan : (c.pow x y).isNaN
      · simp only [if_pos hnan]
        refine .domain ?_ hnan
        simp only [List.forall_mem_cons]
        exact ⟨not_isNaN_of_isFinite hx, not_isNaN_of_isFinite hy, List.forall_mem_nil _⟩
      · by_cases hinf : (c.pow x y).isInf
        · simp only [if_neg hnan, if_pos hinf]
          by_cases hzero : x == 0.0
          · simp only [if_pos hzero]
            refine .pole ⟨hzero, ?_⟩
            by_contra hless
            rw [h.conforms.pow_zero_bounded x y hzero hy hless] at hinf
            cases hinf
          · simp only [if_neg hzero]
            exact .overflow (by simp [hx, hy]) hinf fun hpole => hzero hpole.1
        · simp only [if_neg hnan, if_neg hinf]
          exact .value
    · simp only [if_neg hfinite]
      exact .value
  fmod x y := by
    by_cases hraised : ((x.isInf || y == 0.0) && !x.isNaN && !y.isNaN) = true
    · rw [show c.host.fmod x y = .error .domain from if_pos hraised]
      simp only [Bool.and_eq_true, Bool.or_eq_true, Bool.not_eq_true'] at hraised
      obtain ⟨⟨hinvalid, hx⟩, hy⟩ := hraised
      refine .domain ?_ (Number.remainder_isRemainder.invalid x y (by tauto))
      simp only [List.forall_mem_cons, hx, hy]
      exact ⟨Bool.false_ne_true, Bool.false_ne_true, List.forall_mem_nil _⟩
    · rw [show c.host.fmod x y = .ok (Number.remainder x y) from if_neg hraised]
      exact .value

/-- Division, powers, remainders and the functions that are guarded give what the C library gives,
    in the routines and over every host that mirrors it. -/
theorem guards_give_library {c : Elementary} (h : c.Standard) {fmod : Float → Float → Float}
    (hfmod : IsRemainder fmod) :
    (∀ x y, quotient x y = x / y ∧ power c.pow x y = c.pow x y ∧ remainder x y = fmod x y) ∧
      (∀ f ∈ [c.sin, c.cos, c.tan, c.asin, c.acos, Float.sqrt],
        guarded false (checked false f) = f) ∧
      guarded false (checked true c.exp) = c.exp ∧
      (∀ f ∈ [c.log, c.log10], guarded true (checked false f) = f) ∧
      ∀ p : Primitives, p.Mirrors c fmod →
        (∀ x y, p.quotient x y = .ok (x / y) ∧ p.power x y = .ok (c.pow x y) ∧
          p.remainder x y = .ok (fmod x y)) ∧
        (∀ q ∈ p.plain c, ∀ x, retaken false q.1 x = .ok (q.2 x)) ∧
        ∀ q ∈ p.logarithms c, ∀ x, retaken true q.1 x = .ok (q.2 x) := by
  have hc := h.conforms
  have hguarded : ∀ f ∈ [c.sin, c.cos, c.tan, c.asin, c.acos, Float.sqrt],
      guarded false (checked false f) = f := by
    obtain ⟨hsin, hcos, htan, hasin, hacos, hsqrt⟩ := h.forall_bounded
      (P := fun f => guarded false (checked false f) = f)
      fun f hf => guarded_bounded fun x hx => by simpa using hf x hx
    simp only [List.forall_mem_cons]
    exact ⟨hsin, hcos, htan, hasin, hacos, hsqrt, List.forall_mem_nil _⟩
  refine ⟨fun x y => ⟨quotient_eq x y, power_eq hc x y, ?_⟩, hguarded,
    guarded_exponential hc.exp_overflow, fun f hf => ?_, fun p hp => ⟨fun x y => ?_, ?_, ?_⟩⟩
  · rw [remainder_eq, hfmod.unique Number.remainder_isRemainder]
  · exact guarded_logarithm (hc.logarithm_pole f hf) (hc.logarithm_bounded f hf)
  · exact ⟨hp.quotient x y, hp.power hfmod h x y, hp.remainder hfmod x y⟩
  · exact hp.plain_retaken h
  · exact hp.logarithms_retaken h

/-- The special values of the standard, with one power that overflows, and constants elsewhere. -/
def Elementary.special : Elementary where
  sin _ := 0.0
  cos _ := 1.0
  tan _ := 0.0
  asin _ := 0.0
  acos _ := 1.5707963267948966
  atan _ := 0.0
  exp _ := 1.0
  log x := if x == 0.0 then negativeInfinity else 0.0
  log10 x := if x == 0.0 then negativeInfinity else 0.0
  pow x y :=
    if y == 0.0 then 1.0
    else if x == 0.0 then
      if y < 0.0 then if isOddInteger y then withSignOf positiveInfinity x else positiveInfinity
      else 0.0
    else if x < 0.0 then if x = -10.0 ∧ y = 309.0 then negativeInfinity else notANumber
    else 1.0
  atan2 _ _ := 0.0
  others _ := none

section Special

variable {x y : Float} {p q : ℚ}

theorem ne_of_rational? (hx : rational? x = some p) (hy : rational? y = some q) (h : p ≠ q) :
    x ≠ y := by
  rintro rfl
  exact h (Option.some.inj (hx.symm.trans hy))

theorem not_beq_zero (hx : rational? x = some q) (hq : q ≠ 0) : ¬ x == 0.0 := fun h0 =>
  hq (Option.some.inj (hx.symm.trans (Number.beq_zero_iff_rational?.1 h0)))

theorem special_pow_of_zero (hx : x == 0.0) (hy : ¬ y == 0.0) :
    Elementary.special.pow x y = if y < 0.0 then
      if isOddInteger y then withSignOf positiveInfinity x else positiveInfinity
    else 0.0 := by
  simp only [Elementary.special, if_neg hy, if_pos hx]

theorem special_pow_of_negative (hx : rational? x = some p) (hp : p < 0) (hy : ¬ y == 0.0) :
    Elementary.special.pow x y =
      if x = -10.0 ∧ y = 309.0 then negativeInfinity else notANumber := by
  have hless := (Number.lt_zero_iff_rational? hx).2 hp
  simp only [Elementary.special, if_neg hy, if_neg (not_beq_zero hx hp.ne), if_pos hless]

theorem special_pow_of_positive (hx : rational? x = some p) (hp : 0 < p) :
    Elementary.special.pow x y = 1.0 := by
  have hless : ¬ x < 0.0 := fun h => hp.not_gt ((Number.lt_zero_iff_rational? hx).1 h)
  simp only [Elementary.special, if_neg (not_beq_zero hx hp.ne'), if_neg hless, ite_self]

theorem rational?_odd_exponent : rational? 309.0 = some 309 := by
  have hview : Number.view 309.0 = .finite .positive (309 * 2 ^ 44) (-44) (by decide) := rfl
  rw [rational?, hview]
  norm_num [Number.scaled, Float.Model.UnpackedFloat.Sign.apply]

end Special

theorem special_standard : Elementary.special.Standard where
  bounded := by
    intro f hf x _
    simp only [List.mem_cons, List.not_mem_nil, or_false] at hf
    rcases hf with rfl | rfl | rfl | rfl | rfl <;> simp only [Elementary.special] <;> decide
  exp_sign x := by
    simp only [Elementary.special]
    decide
  logarithm_zero := by
    intro f hf x hx
    have hzero := Number.beq_zero_iff_rational?.2 hx
    simp only [List.mem_cons, List.not_mem_nil, or_false] at hf
    rcases hf with rfl | rfl <;> exact if_pos hzero
  logarithm_bounded := by
    intro f hf x q hx hq
    have hzero := not_beq_zero hx hq
    simp only [List.mem_cons, List.not_mem_nil, or_false] at hf
    rcases hf with rfl | rfl <;> simp only [Elementary.special, if_neg hzero] <;> decide
  pow_by_zero x y hy := if_pos (Number.beq_zero_iff_rational?.2 hy)
  pow_of_zero x y q hx hy hq := by
    have hless : ¬ y < 0.0 := fun h => hq.not_gt ((Number.lt_zero_iff_rational? hy).1 h)
    rw [special_pow_of_zero (Number.beq_zero_iff_rational?.2 hx) (not_beq_zero hy hq.ne'),
      if_neg hless]
    rfl
  pow_pole_odd x y q hx hy hq hodd := by
    rw [special_pow_of_zero (Number.beq_zero_iff_rational?.2 hx) (not_beq_zero hy hq.ne),
      if_pos ((Number.lt_zero_iff_rational? hy).2 hq), if_pos ((isOddInteger_iff_isOdd hy).2 hodd)]
  pow_pole x y q hx hy hq hodd := by
    rw [special_pow_of_zero (Number.beq_zero_iff_rational?.2 hx) (not_beq_zero hy hq.ne),
      if_pos ((Number.lt_zero_iff_rational? hy).2 hq),
      if_neg fun h => hodd ((isOddInteger_iff_isOdd hy).1 h)]
  pow_pole_infinite x hx := by
    rw [special_pow_of_zero (Number.beq_zero_iff_rational?.2 hx) (by decide)]
    rfl
  pow_fraction x y p q hx hy hp hq := by
    have hne : ¬ (x = -10.0 ∧ y = 309.0) := fun h =>
      ne_of_rational? hy rational?_odd_exponent (by simpa using hq 309) h.2
    rw [special_pow_of_negative hx hp (not_beq_zero hy (by simpa using hq 0)), if_neg hne]
    decide
  pow_sign x y p q hx _ hp := by
    rw [special_pow_of_positive hx hp]
    decide
  pow_sign_integer x y p n hx hy hp hinf := by
    rcases lt_or_gt_of_ne hp with hneg | hpos
    · by_cases hzero : y == 0.0
      · rw [show Elementary.special.pow x y = 1.0 from if_pos hzero] at hinf
        exact absurd hinf (by decide)
      · rw [special_pow_of_negative hx hneg hzero] at hinf ⊢
        split_ifs at hinf ⊢ with hcase
        · obtain rfl : n = 309 := by
            rw [hcase.2, rational?_odd_exponent] at hy
            exact_mod_cast (Option.some.inj hy).symm
          have hodd : p ^ (309 : Int) < 0 := Odd.zpow_neg (by decide) hneg
          simp only [hodd, iff_true]
          decide
        · exact absurd hinf (by decide)
    · rw [special_pow_of_positive hx hpos] at hinf
      exact absurd hinf (by decide)

/-- A pole with a sign, an overflow with a sign, a logarithm of zero and an exact remainder. -/
theorem guards_give_library_special :
    let p := Elementary.special.host
    Elementary.special.Standard ∧ IsRemainder Number.remainder ∧
      p.Mirrors Elementary.special Number.remainder ∧
      p.pow (-0.0) (-3.0) = .error .domain ∧ p.power (-0.0) (-3.0) = .ok negativeInfinity ∧
      p.pow (-10.0) 309.0 = .error .overflow ∧ p.power (-10.0) 309.0 = .ok negativeInfinity ∧
      p.log (-0.0) = .error .domain ∧ retaken true p.log (-0.0) = .ok negativeInfinity ∧
      p.operate .divide 1.0 (-0.0) = .error .zeroDivision ∧
      p.quotient 1.0 (-0.0) = .ok negativeInfinity ∧ p.remainder (-5.5) 2.0 = .ok (-1.5) := by
  intro p
  have hmirrors := host_mirrors special_standard
  obtain ⟨-, -, -, -, hhost⟩ :=
    guards_give_library special_standard Number.remainder_isRemainder
  obtain ⟨hbinary, hplain, hlogarithms⟩ := hhost p hmirrors
  have hpole : Elementary.special.pow (-0.0) (-3.0) = negativeInfinity := by decide
  have hpow : Elementary.special.pow (-10.0) 309.0 = negativeInfinity := by decide
  have hlog : Elementary.special.log (-0.0) = negativeInfinity := by decide
  refine ⟨special_standard, Number.remainder_isRemainder, hmirrors, by decide, ?_, by decide, ?_,
    by decide, ?_, by decide, ?_, ?_⟩
  · rw [(hbinary _ _).2.1, hpole]
  · rw [(hbinary _ _).2.1, hpow]
  · have hmem : (p.log, Elementary.special.log) ∈ p.logarithms Elementary.special := by
      simp [Primitives.logarithms]
    exact (hlogarithms _ hmem (-0.0)).trans (congrArg Except.ok hlog)
  · rw [(hbinary _ _).1]
    decide
  · rw [(hbinary _ _).2.2]
    decide

end ArithCompiler.Math

import Mathlib.Algebra.BigOperators.Group.List.Basic
import Mathlib.Algebra.Order.Ring.Int
import Mathlib.Data.List.Infix

set_option autoImplicit false

/-!
# Nesting

The depth of a text is the number of parentheses it opens and does not close. Two parentheses belong
together when the text between them is balanced. A pair that begins in a balanced part of a text ends
in that part.
-/

namespace ArithCompiler.Text

def nesting : Char → ℤ
  | '(' => 1
  | ')' => -1
  | _ => 0

def depth (cs : List Char) : ℤ := (cs.map nesting).sum

theorem depth_cons (c : Char) (cs : List Char) : depth (c :: cs) = nesting c + depth cs :=
  List.sum_cons

theorem depth_append (cs ds : List Char) : depth (cs ++ ds) = depth cs + depth ds := by
  rw [depth, List.map_append, List.sum_append]
  rfl

def Plain (cs : List Char) : Prop := ∀ c ∈ cs, c ≠ '(' ∧ c ≠ ')'

structure Balanced (cs : List Char) : Prop where
  depth_eq : depth cs = 0
  depth_nonneg : ∀ front back, cs = front ++ back → 0 ≤ depth front

theorem balanced_iff {cs : List Char} :
    Balanced cs ↔ depth cs = 0 ∧ ∀ front ∈ cs.inits, 0 ≤ depth front := by
  constructor
  · intro h
    refine ⟨h.depth_eq, fun front hfront => ?_⟩
    obtain ⟨back, hback⟩ := (List.mem_inits front cs).1 hfront
    exact h.depth_nonneg front back hback.symm
  · rintro ⟨hdepth, hnonneg⟩
    refine ⟨hdepth, fun front back h => hnonneg front ?_⟩
    exact (List.mem_inits front cs).2 ⟨back, h.symm⟩

instance (cs : List Char) : Decidable (Balanced cs) := decidable_of_iff _ balanced_iff.symm

theorem nesting_eq_zero {c : Char} (ho : c ≠ '(') (hc : c ≠ ')') : nesting c = 0 := by
  unfold nesting
  split
  · exact absurd rfl ho
  · exact absurd rfl hc
  · rfl

theorem Plain.depth_eq {cs : List Char} (h : Plain cs) : depth cs = 0 := by
  refine List.sum_eq_zero fun n hn => ?_
  obtain ⟨c, hc, rfl⟩ := List.mem_map.1 hn
  exact nesting_eq_zero (h c hc).1 (h c hc).2

theorem Plain.balanced {cs : List Char} (h : Plain cs) : Balanced cs := by
  refine ⟨h.depth_eq, ?_⟩
  rintro front back rfl
  have hfront : Plain front := fun c hc => h c (List.mem_append_left back hc)
  exact hfront.depth_eq.ge

namespace Balanced

variable {cs ds : List Char}

theorem nil : Balanced [] := Plain.balanced nofun

theorem append (hcs : Balanced cs) (hds : Balanced ds) : Balanced (cs ++ ds) := by
  refine ⟨by rw [depth_append, hcs.depth_eq, hds.depth_eq, add_zero], ?_⟩
  intro front back h
  rcases List.append_eq_append_iff.1 h with ⟨more, rfl, hmore⟩ | ⟨more, hmore, -⟩
  · rw [depth_append, hcs.depth_eq, zero_add]
    exact hds.depth_nonneg more back hmore
  · exact hcs.depth_nonneg front more hmore

theorem enclosed (h : Balanced cs) : Balanced ('(' :: (cs ++ [')'])) := by
  constructor
  · rw [depth_cons, depth_append, h.depth_eq]
    rfl
  · intro front back heq
    cases front with
    | nil => exact le_rfl
    | cons c front =>
      obtain ⟨rfl, hfront⟩ := List.cons_eq_cons.1 heq
      rw [depth_cons]
      change 0 ≤ 1 + depth front
      rcases List.append_eq_append_iff.1 hfront with ⟨more, rfl, hmore⟩ | ⟨more, rfl, -⟩
      · rw [depth_append, h.depth_eq, zero_add]
        rcases more with - | ⟨d, more⟩
        · exact Int.one_nonneg
        · obtain ⟨rfl, hlast⟩ := List.cons_eq_cons.1 hmore
          obtain ⟨rfl, -⟩ := List.append_eq_nil_iff.1 hlast.symm
          exact le_rfl
      · have := h.depth_nonneg front more rfl
        omega

/-- A balanced text does not go on as one behind a parenthesis that closes. -/
theorem closing_eq (hcs : Balanced cs) {more us vs : List Char} (hds : Balanced (cs ++ more))
    (h : ')' :: us = more ++ ')' :: vs) : more = [] ∧ us = vs := by
  cases more with
  | nil => exact ⟨rfl, (List.cons_eq_cons.1 h).2⟩
  | cons c more =>
    obtain ⟨rfl, -⟩ := List.cons_eq_cons.1 h
    have hnonneg := hds.depth_nonneg (cs ++ [')']) more (by simp)
    rw [depth_append, hcs.depth_eq] at hnonneg
    exact absurd hnonneg (by decide)

theorem closing_inj (hcs : Balanced cs) (hds : Balanced ds) {us vs : List Char}
    (h : cs ++ ')' :: us = ds ++ ')' :: vs) : cs = ds ∧ us = vs := by
  rcases List.append_eq_append_iff.1 h with ⟨more, rfl, hmore⟩ | ⟨more, rfl, hmore⟩
  · obtain ⟨rfl, rfl⟩ := hcs.closing_eq hds hmore
    exact ⟨(List.append_nil cs).symm, rfl⟩
  · obtain ⟨rfl, rfl⟩ := hds.closing_eq hcs hmore
    exact ⟨List.append_nil ds, rfl⟩

end Balanced

/-- Two parentheses of a text that belong together, by what stands before, between and behind. -/
structure Pair (cs before inner after : List Char) : Prop where
  text : cs = before ++ '(' :: (inner ++ ')' :: after)
  balanced : Balanced inner

namespace Pair

variable {cs ds before inner after : List Char}

theorem opening_mem (h : Pair cs before inner after) : '(' ∈ cs := by
  rw [h.text]
  exact List.mem_append_right before List.mem_cons_self

theorem not_plain (h : Pair cs before inner after) : ¬ Plain cs :=
  fun hplain => (hplain _ h.opening_mem).1 rfl

/-- A pair that begins in a balanced text ends in it. -/
theorem ends_in (hcs : Balanced cs) (hinner : Balanced inner) {front back : List Char}
    (hbegin : cs = before ++ '(' :: front) (h : front ++ back = inner ++ ')' :: after) :
    ∃ later, front = inner ++ ')' :: later ∧ after = later ++ back := by
  -- the balanced text cannot end within the pair, where a parenthesis is still open
  have hopen : ∀ more, inner ≠ front ++ more := by
    intro more hmore
    have hbefore := hcs.depth_nonneg before ('(' :: front) hbegin
    have hfront := hinner.depth_nonneg front more hmore
    have hdepth := hcs.depth_eq
    rw [hbegin, depth_append, depth_cons] at hdepth
    change depth before + (1 + depth front) = 0 at hdepth
    omega
  rcases List.append_eq_append_iff.1 h with ⟨more, hmore, -⟩ | ⟨more, rfl, hmore⟩
  · exact absurd hmore (hopen more)
  · cases more with
    | nil => exact absurd (by rw [List.append_nil, List.append_nil]) (hopen [])
    | cons c later =>
      obtain ⟨rfl, hafter⟩ := List.cons_eq_cons.1 hmore
      exact ⟨later, rfl, hafter⟩

/-- A pair of a text whose first part is balanced is in that part or in the rest. -/
theorem append_cases (hcs : Balanced cs) (h : Pair (cs ++ ds) before inner after) :
    (∃ later, Pair cs before inner later ∧ after = later ++ ds) ∨
      ∃ earlier, Pair ds earlier inner after ∧ before = cs ++ earlier := by
  rcases List.append_eq_append_iff.1 h.text with ⟨earlier, rfl, hds⟩ | ⟨front, rfl, hfront⟩
  · exact .inr ⟨earlier, ⟨hds, h.balanced⟩, rfl⟩
  · cases front with
    | nil => exact .inr ⟨[], ⟨hfront.symm, h.balanced⟩, by rw [List.append_nil, List.append_nil]⟩
    | cons c front =>
      obtain ⟨rfl, hmore⟩ := List.cons_eq_cons.1 hfront
      obtain ⟨later, rfl, hafter⟩ := ends_in hcs h.balanced rfl hmore.symm
      exact .inl ⟨later, ⟨rfl, h.balanced⟩, hafter⟩

theorem plain_append (hcs : Plain cs) (h : Pair (cs ++ ds) before inner after) :
    ∃ earlier, Pair ds earlier inner after ∧ before = cs ++ earlier := by
  rcases h.append_cases hcs.balanced with ⟨later, hpair, -⟩ | hrest
  · exact absurd hcs hpair.not_plain
  · exact hrest

/-- A pair of a balanced text with parentheses around it is these, or it is in the text. -/
theorem enclosed_cases (hcs : Balanced cs) (h : Pair ('(' :: (cs ++ [')'])) before inner after) :
    (before = [] ∧ inner = cs ∧ after = []) ∨
      ∃ earlier later, Pair cs earlier inner later ∧ before = '(' :: earlier ∧
        after = later ++ [')'] := by
  cases before with
  | nil =>
    left
    obtain ⟨-, hrest⟩ := List.cons_eq_cons.1 h.text
    obtain ⟨rfl, hafter⟩ := h.balanced.closing_inj hcs hrest.symm
    exact ⟨rfl, rfl, hafter⟩
  | cons c earlier =>
    right
    obtain ⟨rfl, hrest⟩ := List.cons_eq_cons.1 h.text
    have hpair : Pair (cs ++ [')']) earlier inner after := ⟨hrest, h.balanced⟩
    rcases hpair.append_cases hcs with ⟨later, hwithin, rfl⟩ | ⟨_, hlast, -⟩
    · exact ⟨earlier, later, hwithin, rfl, rfl⟩
    · exact absurd hlast.opening_mem (by decide)

end Pair

end ArithCompiler.Text

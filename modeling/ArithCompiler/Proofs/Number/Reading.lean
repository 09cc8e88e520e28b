import ArithCompiler.Number.Shortest
import ArithCompiler.Proofs.Lexer.Numeral
import ArithCompiler.Proofs.Number.Exact

set_option autoImplicit false

/-!
# Doubles are read back from their texts

A text that the search for a short one returns has been read back. When it finds none, all digits
of the number are written, and these are exact.
-/

namespace ArithCompiler.Number

open Float.Model (UnpackedFloat)
open Lexer (Stops stops_cons stops_nil takeWhile_of_stops dropWhile_of_stops)

theorem isDigit_of_mem_digitsOf {n : Nat} {c : Char} (h : c ∈ digitsOf n) : isDigit c := by
  have hc := Nat.isDigit_of_mem_toDigits (by decide) (by decide) h
  simpa [isDigit, Char.isDigit, Char.le_def] using hc

theorem digitsOf_ne_nil (n : Nat) : digitsOf n ≠ [] := Nat.toDigits_ne_nil

theorem ofDigits_digitsOf (n : Nat) : ofDigits (digitsOf n) = n :=
  Nat.ofDigitChars_ten_toDigits

theorem decimal?_digitsOf_append (n : Nat) {tail : List Char} (hd : Stops isDigit tail)
    (hp : Stops (· == '.') tail) :
    decimal? (digitsOf n ++ tail) = (exponent? tail).map fun e => ⟨n, e⟩ := by
  have hdigits : ∀ c ∈ digitsOf n, isDigit c := fun c hc => isDigit_of_mem_digitsOf hc
  have hne := digitsOf_ne_nil n
  rw [decimal?, takeWhile_of_stops hdigits hd, dropWhile_of_stops hdigits hd]
  cases tail with
  | nil => simp [hne, ofDigits_digitsOf]
  | cons c tail =>
    have hc : c ≠ '.' := by simpa using hp c rfl
    simp [hc, hne, ofDigits_digitsOf]

theorem exponent?_minus_digitsOf (j : Nat) :
    exponent? ('e' :: '-' :: digitsOf j) = some (-(j : Int)) := by
  have hall : (digitsOf j).all isDigit :=
    List.all_eq_true.2 fun c hc => isDigit_of_mem_digitsOf hc
  simp [exponent?, digitsOf_ne_nil, hall, ofDigits_digitsOf]

theorem decimal?_exactText (m : Nat) (e : Int) :
    decimal? (exactText m e)
      = some (if 0 ≤ e then ⟨m * 2 ^ e.toNat, 0⟩ else ⟨m * 5 ^ (-e).toNat, e⟩) := by
  unfold exactText
  split
  · have h := decimal?_digitsOf_append (m * 2 ^ e.toNat) (stops_nil _) (stops_nil _)
    rwa [List.append_nil] at h
  · rw [decimal?_digitsOf_append _ (stops_cons (by decide) _) (stops_cons (by decide) _),
      exponent?_minus_digitsOf]
    have hback : -((-e).toNat : Int) = e := by omega
    rw [Option.map_some, hback]

theorem ofNumeral?_exactText {m : Nat} {e : Int} (h : Representable m e) :
    ofNumeral? (exactText m e) = some (ofView (.finite .positive m e h.pos)) := by
  rw [ofNumeral?, decimal?_exactText, Option.map_some, Decimal.toFloat]
  congr 1
  split
  · rename_i he
    exact congrArg ofView (ofScientific_integer h he)
  · rename_i he
    obtain ⟨j, rfl⟩ : ∃ j : Nat, e = -j := ⟨(-e).toNat, by omega⟩
    have hj : (- -(j : Int)).toNat = j := by omega
    simp only [hj]
    exact congrArg ofView (ofScientific_fraction h (by omega))

theorem ofNumeral?_shortestText (form : Notation) {m : Nat} {e : Int} (h : Representable m e) :
    ofNumeral? (shortestText form (ofView (.finite .positive m e h.pos)) m e)
      = some (ofView (.finite .positive m e h.pos)) := by
  unfold shortestText
  cases hfound : (List.range 17).findSome? fun i =>
      (candidates form (Ratio.ofBinary m e) (i + 1)).find?
        (readsBack (ofView (.finite .positive m e h.pos))) with
  | none =>
    simp only [hfound, Option.getD_none]
    exact ofNumeral?_exactText h
  | some text =>
    simp only [hfound, Option.getD_some]
    obtain ⟨i, -, hi⟩ := List.exists_of_findSome?_eq_some hfound
    have hback := List.find?_some hi
    simpa [readsBack] using hback

theorem isFinite_iff (x : Float) : x.isFinite ↔ (view x).isFinite := Iff.rfl

theorem ofNumeral?_magnitudeText {x : Float} (h : x.isFinite) :
    ofNumeral? (magnitudeText standard x) = some x.abs := by
  rw [isFinite_iff] at h
  have hcanonical := canonical_view x
  unfold magnitudeText
  split
  · rename_i hx
    rw [hx] at h
    cases h
  · rename_i hx
    rw [hx] at h
    cases h
  · rename_i s hx
    have habs : x.abs = ofView (.zero .positive) := by
      apply view_inj
      rw [view_abs, hx]
      rfl
    rw [habs]
    decide
  · rename_i s m e hm hx
    rw [hx] at hcanonical
    have habs : x.abs = ofView (.finite .positive m e hm) := by
      apply view_inj
      rw [view_abs, hx, view_ofView (u := .finite .positive m e hm) hcanonical]
      rfl
    rw [habs]
    exact ofNumeral?_shortestText standard hcanonical

theorem numeral_magnitudeText {x : Float} (h : x.isFinite) :
    Lexer.Numeral (magnitudeText standard x) := by
  rw [Lexer.numeral_iff_decimal?]
  have hread := ofNumeral?_magnitudeText h
  rw [ofNumeral?, Option.map_eq_some_iff] at hread
  obtain ⟨d, hd, -⟩ := hread
  rw [hd]
  rfl

end ArithCompiler.Number

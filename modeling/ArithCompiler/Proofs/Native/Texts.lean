import ArithCompiler.Proofs.Lexer.Words
import ArithCompiler.Proofs.Native.Numbering
import ArithCompiler.Proofs.Number.Canonical

set_option autoImplicit false

/-!
# Lines of native code

What the lines of a module look like, spelled out for each instruction and for a declaration, when
the names in them need no escapes. A double is written by its bits. Those of what is not a number
may be any: the relation does not choose among them.
-/

namespace ArithCompiler

inductive StemText : Stem → String → Prop
  | sum : StemText (.operator .add) "addtmp"
  | difference : StemText (.operator .subtract) "subtmp"
  | product : StemText (.operator .multiply) "multmp"
  | quotient : StemText (.operator .divide) "divtmp"
  | call : StemText .call "calltmp"

inductive ResultText : ResultName → String → Prop
  | first {stem : Stem} {s : String} :
      StemText stem s → ResultText ⟨stem, 0⟩ ("%\"" ++ s ++ "\"")
  | again {stem : Stem} {s : String} (n : Nat) :
      StemText stem s → ResultText ⟨stem, n + 1⟩ ("%\"" ++ s ++ "." ++ toString (n + 1) ++ "\"")

inductive OperandText : Operand → String → Prop
  | const (bits : UInt64) : OperandText (.const (.ofBits bits))
      (String.leftpad 16 ' ' ("0x" ++ String.ofList (Nat.toDigits 16 bits.toNat)))
  | result {r : ResultName} {s : String} : ResultText r s → OperandText (.result r) s

inductive LineText : NativeInstr → String → Prop
  | sum {dest : ResultName} {left right : Operand} {d a b : String} :
      ResultText dest d → OperandText left a → OperandText right b →
      LineText (.binary .add dest left right) (d ++ " = fadd double " ++ a ++ ", " ++ b)
  | difference {dest : ResultName} {left right : Operand} {d a b : String} :
      ResultText dest d → OperandText left a → OperandText right b →
      LineText (.binary .subtract dest left right) (d ++ " = fsub double " ++ a ++ ", " ++ b)
  | product {dest : ResultName} {left right : Operand} {d a b : String} :
      ResultText dest d → OperandText left a → OperandText right b →
      LineText (.binary .multiply dest left right) (d ++ " = fmul double " ++ a ++ ", " ++ b)
  | quotient {dest : ResultName} {left right : Operand} {d a b : String} :
      ResultText dest d → OperandText left a → OperandText right b →
      LineText (.binary .divide dest left right) (d ++ " = fdiv double " ++ a ++ ", " ++ b)
  | call {dest : ResultName} (callee : String) {args : List Operand} {d : String}
      {as : List String} : ResultText dest d → List.Forall₂ OperandText args as →
      LineText (.call dest callee args) (d ++ " = call double @\"" ++ callee ++ "\"("
        ++ ", ".intercalate (as.map ("double " ++ ·)) ++ ")")
  | ret {value : Operand} {a : String} :
      OperandText value a → LineText (.ret value) ("ret double " ++ a)

def declareLine (d : Declaration) : String :=
  "declare double @\"" ++ d.name ++ "\"("
    ++ ", ".intercalate ((List.range d.arity).map fun i =>
      "double %\"." ++ toString (i + 1) ++ "\"") ++ ")\n"

/-! ## The lines that are printed -/

theorem stemText (stem : Stem) : StemText stem stem.text := by
  cases stem with
  | operator op =>
    cases op with
    | add => exact .sum
    | subtract => exact .difference
    | multiply => exact .product
    | divide => exact .quotient
  | call => exact .call

theorem resultText (r : ResultName) : ResultText r r.text := by
  obtain ⟨stem, copy⟩ := r
  cases copy with
  | zero =>
    have htext : ResultName.text ⟨stem, 0⟩ = "%\"" ++ stem.text ++ "\"" := by
      simp [ResultName.text]
    rw [htext]
    exact .first (stemText stem)
  | succ n =>
    have htext : ResultName.text ⟨stem, n + 1⟩
        = "%\"" ++ stem.text ++ "." ++ toString (n + 1) ++ "\"" := by
      simp [ResultName.text, String.append_assoc]
    rw [htext]
    exact .again n (stemText stem)

theorem ofBits_toBits (x : Float) : Float.ofBits x.toBits = x := Number.ofView_view x

theorem constantText_eq_leftpad (x : Float) : constantText x
    = String.leftpad 16 ' ' ("0x" ++ String.ofList (Nat.toDigits 16 x.toBits.toNat)) := by
  rw [constantText, String.leftpad, List.leftpad, String.ofList_append, String.ofList_toList]
  rfl

theorem operandText (o : Operand) : OperandText o o.text := by
  cases o with
  | const x =>
    have h := OperandText.const x.toBits
    rw [ofBits_toBits, ← constantText_eq_leftpad] at h
    exact h
  | result r => exact .result (resultText r)

def IsVerbatim (name : String) : Prop := ∀ c ∈ name.toList, c ≠ '\\' ∧ c ≠ Text.doubleQuote

theorem IsVerbatim.functionText_eq {name : String} (h : IsVerbatim name) :
    functionText name = "@\"" ++ name ++ "\"" := by
  have hescape : (name.toList.flatMap fun c => if c == '\\' then ['\\', '5', 'c']
      else if c == Text.doubleQuote then ['\\', '2', '2'] else [c]) = name.toList := by
    refine (List.flatMap_congr fun c hc => ?_).trans (List.flatMap_singleton' name.toList)
    obtain ⟨hbackslash, hquote⟩ := h c hc
    simp [hbackslash, hquote]
  rw [functionText, hescape, String.ofList_toList]

theorem IsIdentifier.isVerbatim {name : String} (h : IsIdentifier name) : IsVerbatim name := by
  obtain ⟨c, cs, htext, hc, hcs⟩ := h
  have hchars := Lexer.forall_isNameChar hc hcs
  intro d hd
  rw [htext] at hd
  refine ⟨?_, ?_⟩ <;> rintro rfl <;> exact absurd (hchars _ hd) (by decide)

theorem isVerbatim_of_all {name : String}
    (h : name.toList.all (fun c => c != '\\' && c != Text.doubleQuote) = true) :
    IsVerbatim name := by
  simpa only [IsVerbatim, List.all_eq_true, Bool.and_eq_true, bne_iff_ne] using h

theorem isVerbatim_calleeName {f : String} (h : IsIdentifier f) :
    IsVerbatim (NativeModule.calleeName f) := by
  unfold NativeModule.calleeName intrinsic?
  split
  · exact isVerbatim_of_all (by decide)
  · exact isVerbatim_of_all (by decide)
  · exact h.isVerbatim

theorem NativeInstr.binary_text (op : Operator) (dest : ResultName) (left right : Operand) :
    (NativeInstr.binary op dest left right).text
      = dest.text ++ (" = " ++ op.mnemonic ++ " double ") ++ left.text ++ ", " ++ right.text := by
  change dest.text ++ " = " ++ op.mnemonic ++ " double " ++ left.text ++ ", " ++ right.text = _
  simp only [String.append_assoc]

theorem NativeInstr.call_text {callee : String} (h : IsVerbatim callee) (dest : ResultName)
    (args : List Operand) : (NativeInstr.call dest callee args).text
      = dest.text ++ " = call double @\"" ++ callee ++ "\"("
        ++ ", ".intercalate (args.map fun a => "double " ++ a.text) ++ ")" := by
  -- the quotes belong to the line here, and to the name where it is printed
  have hopen : " = call double @\"" = " = call double " ++ "@\"" := by decide
  have hclose : "\"(" = "\"" ++ "(" := by decide
  change dest.text ++ " = call double " ++ functionText callee ++ "("
    ++ ", ".intercalate (args.map fun a => "double " ++ a.text) ++ ")" = _
  rw [h.functionText_eq, hopen, hclose]
  simp only [String.append_assoc]

theorem lineText {i : NativeInstr} (h : ∀ callee ∈ i.callee?, IsVerbatim callee) :
    LineText i i.text := by
  cases i with
  | binary op dest left right =>
    have hdest := resultText dest
    have hleft := operandText left
    have hright := operandText right
    rw [NativeInstr.binary_text]
    cases op with
    | add =>
      rw [show " = " ++ Operator.mnemonic .add ++ " double " = " = fadd double " by decide]
      exact .sum hdest hleft hright
    | subtract =>
      rw [show " = " ++ Operator.mnemonic .subtract ++ " double " = " = fsub double " by decide]
      exact .difference hdest hleft hright
    | multiply =>
      rw [show " = " ++ Operator.mnemonic .multiply ++ " double " = " = fmul double " by decide]
      exact .product hdest hleft hright
    | divide =>
      rw [show " = " ++ Operator.mnemonic .divide ++ " double " = " = fdiv double " by decide]
      exact .quotient hdest hleft hright
  | call dest callee args =>
    have hargs : List.Forall₂ OperandText args (args.map Operand.text) :=
      List.forall₂_map_right_iff.2 (List.forall₂_same.2 fun a _ => operandText a)
    have hline := LineText.call callee (resultText dest) hargs
    rw [List.map_map] at hline
    rw [NativeInstr.call_text (h callee rfl)]
    exact hline
  | ret value => exact .ret (operandText value)

theorem Declaration.text_eq {d : Declaration} (h : IsVerbatim d.name) : d.text = declareLine d := by
  have hopen : "declare double @\"" = "declare double " ++ "@\"" := by decide
  have hclose : "\"(" = "\"" ++ "(" := by decide
  have htext : d.text = "declare double " ++ functionText d.name ++ "("
      ++ ", ".intercalate ((List.range d.arity).map fun i =>
        "double %\"." ++ toString (i + 1) ++ "\"") ++ ")\n" := rfl
  unfold declareLine
  rw [htext, h.functionText_eq, hopen, hclose]
  simp only [String.append_assoc]

end ArithCompiler

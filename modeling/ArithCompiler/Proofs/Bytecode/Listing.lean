import Mathlib.Data.List.Basic
import ArithCompiler.Proofs.Bytecode.Finished
import ArithCompiler.Proofs.Number.Texts

set_option autoImplicit false

/-!
# Listings

The listing of a finished unit can be read in one way only. Its lines end where the text says so,
the opcode is the word before the first blank behind the equals sign, the operands of a call stand
behind the last parenthesis that opens, and the number of a register ends where no digit follows.
A constant is known by its text, so the listing has all that the unit is.
-/

namespace ArithCompiler

open Math (FunctionTable)
open Lexer (Stops stops_nil stops_cons)
open Number (isDigit digitsOf)

/-! ## Where texts are cut -/

theorem bne_of_notMem {c : Char} {cs : List Char} (h : c ∉ cs) : ∀ d ∈ cs, d != c := by
  intro d hd
  refine bne_iff_ne.2 ?_
  rintro rfl
  exact h hd

/-- A text is cut in one way only at the last place of a character. -/
theorem append_inj_of_notMem {c : Char} {w w' rest rest' : List Char} (hrest : c ∉ rest)
    (hrest' : c ∉ rest') (h : w ++ c :: rest = w' ++ c :: rest') : w = w' ∧ rest = rest' := by
  have hreverse := congrArg List.reverse h
  simp only [List.reverse_append, List.reverse_cons, List.append_assoc] at hreverse
  rw [← List.mem_reverse] at hrest hrest'
  obtain ⟨hback, hfront⟩ := Lexer.append_inj_of_stops (bne_of_notMem hrest)
    (bne_of_notMem hrest') (stops_cons (by simp) _) (stops_cons (by simp) _) hreverse
  exact ⟨List.reverse_injective (List.cons.inj hfront).2, List.reverse_injective hback⟩

theorem eq_of_flatMap_newline {xs ys : List (List Char)} (hxs : ∀ x ∈ xs, '\n' ∉ x)
    (hys : ∀ y ∈ ys, '\n' ∉ y) (h : xs.flatMap (· ++ ['\n']) = ys.flatMap (· ++ ['\n'])) :
    xs = ys := by
  induction xs generalizing ys with
  | nil =>
    cases ys with
    | nil => rfl
    | cons y ys => simp at h
  | cons x xs ih =>
    cases ys with
    | nil => simp at h
    | cons y ys =>
      simp only [List.flatMap_cons, List.append_assoc, List.cons_append, List.nil_append] at h
      obtain ⟨hx, hmore⟩ := List.forall_mem_cons.1 hxs
      obtain ⟨hy, hmore'⟩ := List.forall_mem_cons.1 hys
      obtain ⟨hline, hrest⟩ := Lexer.append_inj_of_stops (bne_of_notMem hx) (bne_of_notMem hy)
        (stops_cons rfl _) (stops_cons rfl _) h
      rw [hline, ih hmore hmore' (List.cons.inj hrest).2]

theorem newline_notMem_of_isIdentifier {x : String} (hx : IsIdentifier x) : '\n' ∉ x.toList := by
  obtain ⟨c, cs, heq, hc, hcs⟩ := hx
  rw [heq]
  exact fun hmem => absurd (Lexer.forall_isNameChar hc hcs _ hmem) (by decide)

/-! ## Registers and operands -/

namespace Instr

theorem toList_registerText (i : Nat) :
    (registerText (Int.ofNat i)).toList = '%' :: digitsOf i := by
  have hdigits : (toString (Int.ofNat i)).toList = digitsOf i := String.toList_ofList
  rw [registerText, String.toList_append, hdigits]
  rfl

theorem registerText_append_inj {i j : Nat} {rest rest' : List Char} (hrest : Stops isDigit rest)
    (hrest' : Stops isDigit rest') (h : (registerText (Int.ofNat i)).toList ++ rest
      = (registerText (Int.ofNat j)).toList ++ rest') : i = j ∧ rest = rest' := by
  have hdigit : ∀ n, ∀ c ∈ digitsOf n, isDigit c := fun _ _ hc =>
    Number.isDigit_of_mem_digitsOf hc
  rw [toList_registerText, toList_registerText] at h
  obtain ⟨hdigits, heq⟩ :=
    Lexer.append_inj_of_stops (hdigit i) (hdigit j) hrest hrest' (List.cons.inj h).2
  refine ⟨?_, heq⟩
  rw [← Number.ofDigits_digitsOf i, hdigits, Number.ofDigits_digitsOf]

def trailing (is : List Nat) : List Char :=
  is.flatMap fun i => [',', ' '] ++ (registerText (Int.ofNat i)).toList

theorem trailing_stops (is : List Nat) : Stops isDigit (trailing is) := by
  cases is with
  | nil => exact stops_nil _
  | cons i is => exact stops_cons (by decide) _

theorem trailing_injective : Function.Injective trailing := by
  intro is js h
  induction is generalizing js with
  | nil =>
    cases js with
    | nil => rfl
    | cons j js => cases h
  | cons i is ih =>
    cases js with
    | nil => cases h
    | cons j js =>
      simp only [trailing, List.flatMap_cons, List.append_assoc] at h
      obtain ⟨rfl, hrest⟩ := registerText_append_inj (trailing_stops is) (trailing_stops js)
        (List.append_cancel_left h)
      rw [ih hrest]

theorem toList_operandsText_cons (i : Nat) (is : List Nat) :
    (operandsText ((i :: is).map Int.ofNat)).toList
      = (registerText (Int.ofNat i)).toList ++ trailing is := by
  rw [operandsText, String.toList_intercalate]
  induction is generalizing i with
  | nil => simp [trailing]
  | cons j is ih =>
    have hmore := ih j
    simp only [List.map_cons] at hmore ⊢
    rw [List.intercalate_cons_cons, hmore]
    simp [trailing]

theorem operandsText_inj {is js : List Nat}
    (h : operandsText (is.map Int.ofNat) = operandsText (js.map Int.ofNat)) : is = js := by
  have hlist := congrArg String.toList h
  have hne : ∀ k ks, (operandsText ((k :: ks).map Int.ofNat)).toList ≠ [] := by
    intro k ks
    rw [toList_operandsText_cons, toList_registerText]
    nofun
  cases is with
  | nil =>
    cases js with
    | nil => rfl
    | cons j js => exact absurd hlist.symm (hne j js)
  | cons i is =>
    cases js with
    | nil => exact absurd hlist (hne i is)
    | cons j js =>
      rw [toList_operandsText_cons, toList_operandsText_cons] at hlist
      obtain ⟨rfl, hrest⟩ :=
        registerText_append_inj (trailing_stops is) (trailing_stops js) hlist
      rw [trailing_injective hrest]

theorem mem_operandsText {is : List Nat} {c : Char}
    (h : c ∈ (operandsText (is.map Int.ofNat)).toList) : isDigit c ∨ c ∈ ['%', ',', ' '] := by
  have hregister : ∀ i, c ∈ (registerText (Int.ofNat i)).toList →
      isDigit c ∨ c ∈ ['%', ',', ' '] := by
    intro i hi
    rw [toList_registerText] at hi
    rcases List.mem_cons.1 hi with rfl | hi
    · exact .inr (by decide)
    · exact .inl (Number.isDigit_of_mem_digitsOf hi)
  cases is with
  | nil => cases h
  | cons i is =>
    rw [toList_operandsText_cons] at h
    rcases List.mem_append.1 h with h | h
    · exact hregister i h
    · obtain ⟨j, -, hj⟩ := List.mem_flatMap.1 h
      rcases List.mem_append.1 hj with hj | hj
      · refine .inr ?_
        simp only [List.mem_cons, List.not_mem_nil, or_false] at hj
        rcases hj with rfl | rfl <;> decide
      · exact hregister j hj

theorem newline_notMem_operandsText (is : List Nat) :
    '\n' ∉ (operandsText (is.map Int.ofNat)).toList := fun hmem =>
  absurd (mem_operandsText hmem) (by decide)

theorem toList_display_ret (result : Nat) : (Instr.ret (Int.ofNat result)).display.toList
    = ['r', 'e', 't', ' '] ++ (operandsText ([result].map Int.ofNat)).toList := by
  simp [Instr.ret, Instr.display]

theorem newline_notMem_display_ret (result : Nat) :
    '\n' ∉ (Instr.ret (Int.ofNat result)).display.toList := by
  rw [toList_display_ret]
  intro hmem
  rcases List.mem_append.1 hmem with hmem | hmem
  · exact absurd hmem (by decide)
  · exact newline_notMem_operandsText [result] hmem

end Instr

open Instr (registerText operandsText newline_notMem_operandsText)

/-! ## Lines of code -/

namespace Line

def detail : Line → List Char
  | const v => (Number.text v).toList
  | binary _ i j => (operandsText ([i, j].map Int.ofNat)).toList
  | call f is => f.toList ++ '(' :: ((operandsText (is.map Int.ofNat)).toList ++ [')'])

theorem toList_display (dest : Nat) (l : Line) : (l.instr dest).display.toList
    = (registerText (Int.ofNat dest)).toList ++ [' ', '=', ' ']
      ++ ((l.instr dest).opcode.name.toList ++ ' ' :: l.detail) := by
  cases l with
  | const v => simp [instr, Instr.const, Instr.display, Instr.destText, Opcode.name, detail]
  | binary op i j =>
    simp [instr, Instr.binary, Instr.display, Instr.destText, Opcode.name, detail]
  | call f is =>
    simp [instr, Instr.call, Instr.display, Instr.destText, Opcode.name, detail]

theorem ofName_opcode (dest : Nat) (l : Line) :
    Opcode.ofName (l.instr dest).opcode.name = (l.instr dest).opcode := by
  cases l with
  | const | call => rfl
  | binary op => cases op <;> rfl

theorem opcode_characters (dest : Nat) (l : Line) :
    ∀ c ∈ (l.instr dest).opcode.name.toList, c ≠ ' ' ∧ c ≠ '\n' := by
  cases l with
  | const v => simp [instr, Instr.const, Opcode.name]
  | binary op i j => cases op <;> simp [instr, Instr.binary, Opcode.name, Operator.mnemonic]
  | call f is => simp [instr, Instr.call, Opcode.name]

theorem eq_of_detail (dest : Nat) {l l' : Line}
    (hopcode : (l.instr dest).opcode = (l'.instr dest).opcode)
    (hdetail : l.detail = l'.detail) : l = l' := by
  cases l with
  | const v =>
    cases l' with
    | const v' => rw [Number.text_injective (String.toList_injective hdetail)]
    | binary | call => cases hopcode
  | binary op i j =>
    cases l' with
    | binary op' i' j' =>
      cases hopcode
      cases Instr.operandsText_inj (String.toList_injective hdetail)
      rfl
    | const | call => cases hopcode
  | call f is =>
    cases l' with
    | call f' is' =>
      -- no operand opens a parenthesis, so the name ends at the last one
      have hopen : ∀ ks : List Nat,
          '(' ∉ (operandsText (ks.map Int.ofNat)).toList ++ [')'] := by
        intro ks hmem
        rcases List.mem_append.1 hmem with hmem | hmem
        · exact absurd (Instr.mem_operandsText hmem) (by decide)
        · cases hmem with
          | tail _ h => cases h
      obtain ⟨hname, hargs⟩ := append_inj_of_notMem (hopen is) (hopen is') hdetail
      rw [String.toList_injective hname,
        Instr.operandsText_inj (String.toList_injective (List.append_cancel_right hargs))]
    | const | binary => cases hopcode

theorem display_inj {dest : Nat} {l l' : Line}
    (h : (l.instr dest).display = (l'.instr dest).display) : l = l' := by
  have hlist := congrArg String.toList h
  rw [toList_display, toList_display] at hlist
  have hword : ∀ k : Line, ∀ c ∈ (k.instr dest).opcode.name.toList, c != ' ' := fun k c hc =>
    bne_iff_ne.2 (k.opcode_characters dest c hc).1
  obtain ⟨hname, hdetail⟩ := Lexer.append_inj_of_stops (hword l) (hword l')
    (stops_cons rfl _) (stops_cons rfl _) (List.append_cancel_left hlist)
  refine eq_of_detail dest ?_ (List.cons.inj hdetail).2
  rw [← l.ofName_opcode, String.toList_injective hname, ofName_opcode]

theorem newline_notMem_display {dest : Nat} {l : Line}
    (h : (l.instr dest).opcode = .call → '\n' ∉ (l.instr dest).callee.toList) :
    '\n' ∉ (l.instr dest).display.toList := by
  have hdetail : '\n' ∉ l.detail := by
    cases l with
    | const v => exact Number.newline_notMem_text v
    | binary op i j => exact newline_notMem_operandsText [i, j]
    | call f is =>
      have hname : '\n' ∉ f.toList := h rfl
      simp [detail, hname, newline_notMem_operandsText is]
  have hregister : '\n' ∉ (registerText (dest : Int)).toList := by
    have hsingle := newline_notMem_operandsText [dest]
    rw [Instr.toList_operandsText_cons] at hsingle
    exact fun hmem => hsingle (List.mem_append_left _ hmem)
  have hname : '\n' ∉ (l.instr dest).opcode.name.toList := fun hmem =>
    (l.opcode_characters dest _ hmem).2 rfl
  rw [toList_display]
  simp [hregister, hname, hdetail]

end Line

/-! ## Listings as lines -/

namespace Program

def lines (p : Program) : List String :=
  ("define f64 @" ++ p.name ++ "() \x7b") :: "entry:" ::
    (p.code.map ("  " ++ ·.display) ++ ["\x7d"])

theorem toList_listing (p : Program) :
    p.listing.toList = (p.lines.map String.toList).flatMap (· ++ ['\n']) := by
  -- an equation for the whole text is slow to make
  delta listing
  simp [lines, List.flatMap_map]

/-- The unit and the functions it calls have names that stand on one line, as every identifier
    does. -/
structure Named (p : Program) : Prop where
  unit : '\n' ∉ p.name.toList
  calls : ∀ i ∈ p.code, i.opcode = .call → '\n' ∉ i.callee.toList

theorem Named.of_identifiers {p : Program} (hname : IsIdentifier p.name)
    (hcalls : ∀ i ∈ p.code, i.opcode = .call → IsIdentifier i.callee) : p.Named :=
  ⟨newline_notMem_of_isIdentifier hname,
    fun i hi hcall => newline_notMem_of_isIdentifier (hcalls i hi hcall)⟩

def Finished (p : Program) : Prop :=
  ∃ functions rs, ∃ x ∈ Backend.exchanges Bytecode.target (.fresh (.empty functions)) rs,
    ∃ u, x.outcome = .ok (.unit u) ∧ p = x.after.state.program u

theorem Finished.code_eq {p : Program} (h : p.Finished) :
    ∃ ls result, p.code = Bytecode.instrs 0 ls ++ [.ret (Int.ofNat result)] := by
  obtain ⟨functions, rs, x, hx, u, hunit, rfl⟩ := h
  have hshaped := Bytecode.mem_exchanges_shaped (Bytecode.shaped_fresh functions) hx
  have hanswer := Backend.mem_exchanges hx
  rw [hunit] at hanswer
  rw [Backend.answer_unit _ hanswer] at hanswer
  obtain ⟨-, ls, result, -, -, hprogram⟩ := Bytecode.finalize_program hshaped hanswer
  exact ⟨ls, result, congrArg Program.code hprogram⟩

theorem newline_notMem_lines {p : Program} (h : p.Finished) (hnamed : p.Named) :
    ∀ line ∈ p.lines.map String.toList, '\n' ∉ line := by
  obtain ⟨ls, result, hcode⟩ := h.code_eq
  have hdisplay : ∀ i ∈ p.code, '\n' ∉ i.display.toList := by
    intro i hi
    have hcall := hnamed.calls i hi
    rw [hcode] at hi
    rcases Bytecode.mem_returned hi with ⟨k, l, -, rfl⟩ | rfl
    · exact Line.newline_notMem_display hcall
    · exact Instr.newline_notMem_display_ret result
  simp only [lines, List.map_cons, List.map_append, List.map_map, List.forall_mem_cons,
    List.forall_mem_append, List.forall_mem_map]
  refine ⟨?_, by simp, fun i hi => ?_, by simp⟩
  · simp [hnamed.unit]
  · simp [hdisplay i hi]

theorem lines_eq {p q : Program} (hp : p.Finished) (hq : q.Finished) (hpn : p.Named)
    (hqn : q.Named) (h : p.listing = q.listing) : p.lines = q.lines := by
  have hlist := congrArg String.toList h
  rw [toList_listing, toList_listing] at hlist
  have hsame := eq_of_flatMap_newline (newline_notMem_lines hp hpn) (newline_notMem_lines hq hqn)
    hlist
  exact List.map_injective_iff.2 (fun _ _ => String.toList_injective) hsame

theorem name_and_displays {p q : Program} (h : p.lines = q.lines) :
    p.name = q.name ∧ p.code.map Instr.display = q.code.map Instr.display := by
  obtain ⟨hhead, hmore⟩ := List.cons.inj h
  refine ⟨(String.append_right_inj _).1 ((String.append_left_inj _).1 hhead), ?_⟩
  have hindent : Function.Injective fun text : String => "  " ++ text := fun _ _ hsame =>
    (String.append_right_inj _).1 hsame
  refine List.map_injective_iff.2 hindent ?_
  rw [List.map_map, List.map_map]
  exact List.append_cancel_right (List.cons.inj hmore).2

theorem instrs_inj {dest : Nat} {ls ls' : List Line}
    (h : (Bytecode.instrs dest ls).map Instr.display
      = (Bytecode.instrs dest ls').map Instr.display) : ls = ls' := by
  induction ls generalizing dest ls' with
  | nil =>
    cases ls' with
    | nil => rfl
    | cons l' ls' => cases h
  | cons l ls ih =>
    cases ls' with
    | nil => cases h
    | cons l' ls' =>
      obtain ⟨hline, hmore⟩ := List.cons.inj h
      rw [Line.display_inj hline, ih hmore]

theorem code_eq_of_displays {p q : Program} (hp : p.Finished) (hq : q.Finished)
    (h : p.code.map Instr.display = q.code.map Instr.display) : p.code = q.code := by
  obtain ⟨ls, result, hcode⟩ := hp.code_eq
  obtain ⟨ls', result', hcode'⟩ := hq.code_eq
  rw [hcode, hcode'] at h ⊢
  rw [List.map_append, List.map_append] at h
  obtain ⟨hlines, hret⟩ := List.append_inj' h rfl
  have hresult := congrArg String.toList (List.cons.inj hret).1
  rw [Instr.toList_display_ret, Instr.toList_display_ret] at hresult
  cases Instr.operandsText_inj (String.toList_injective (List.append_cancel_left hresult))
  rw [instrs_inj hlines]

/-- Listings are faithful: finished units with the same listing have the same name and the same
    code, down to the signs of zeros in their constants, and run alike over every table of
    functions. Nothing is asked of the names but that they stand on one line. -/
theorem listing_faithful {p q : Program} (hp : p.Finished) (hq : q.Finished) (hpn : p.Named)
    (hqn : q.Named) (h : p.listing = q.listing) :
    p.name = q.name ∧ p.code = q.code ∧
      ∀ functions, { p with functions }.run = { q with functions }.run := by
  obtain ⟨hname, hdisplays⟩ := name_and_displays (lines_eq hp hq hpn hqn h)
  have hcode := code_eq_of_displays hp hq hdisplays
  refine ⟨hname, hcode, fun functions => ?_⟩
  rw [hname, hcode]

/-- Two drivers, one of which is refused a return of what is not there yet, and two meanings of the
    function that they call. -/
theorem listing_faithful_two_drivers :
    let code : List Instr := [.const 0 (-0.0), .call 1 "twice" [0], .ret 1]
    let p : Program := ⟨"unit", code, [Math.unary "twice" fun x => x + x]⟩
    let q : Program := ⟨"unit", code, [Math.unary "twice" fun x => 2.0 * x]⟩
    p.Finished ∧ q.Finished ∧ p.Named ∧ q.Named ∧ p.listing = q.listing ∧
      p.name = q.name ∧ p.code = q.code ∧
      ∀ functions, { p with functions }.run = { q with functions }.run := by
  intro code p q
  let finished (functions : FunctionTable) : Backend Bytecode :=
    ⟨.finalized, "unit", ⟨functions, [[]], code, 2⟩⟩
  let last (functions : FunctionTable) : Backend.Exchange Bytecode Handle BytecodeUnit :=
    ⟨.finalize, ⟨.returned, "unit", (finished functions).state⟩, .ok (.unit ⟨"unit", 1⟩),
      finished functions⟩
  have hp : p.Finished :=
    ⟨p.functions, [.create "unit" .entry, .position, .const (-0.0), .call "twice" [.register 0],
        .ret (.register 1), .finalize], last p.functions, List.mem_of_getElem? (i := 5) rfl,
      ⟨"unit", 1⟩, rfl, rfl⟩
  have hq : q.Finished :=
    ⟨q.functions, [.create "unit" .entry, .position, .const (-0.0), .ret (.register 1),
        .call "twice" [.register 0], .ret (.register 1), .finalize], last q.functions,
      List.mem_of_getElem? (i := 6) rfl, ⟨"unit", 1⟩, rfl, rfl⟩
  have hunit : IsIdentifier "unit" :=
    ⟨'u', ['n', 'i', 't'], rfl, by decide, List.all_eq_true.1 (by decide)⟩
  have htwice : IsIdentifier "twice" :=
    ⟨'t', ['w', 'i', 'c', 'e'], rfl, by decide, List.all_eq_true.1 (by decide)⟩
  have hnamed : ∀ functions, Program.Named ⟨"unit", code, functions⟩ := by
    refine fun functions => .of_identifiers hunit fun i hi hcall => ?_
    simp only [code, List.mem_cons, List.not_mem_nil, or_false] at hi
    rcases hi with rfl | rfl | rfl
    · cases hcall
    · exact htwice
    · cases hcall
  have h : p.listing = q.listing := rfl
  exact ⟨hp, hq, hnamed _, hnamed _, h, listing_faithful hp hq (hnamed _) (hnamed _) h⟩

end Program

end ArithCompiler

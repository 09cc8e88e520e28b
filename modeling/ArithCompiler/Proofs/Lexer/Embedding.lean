import ArithCompiler.Proofs.Lexer.Segmentation

set_option autoImplicit false

/-!
# A text within a text

A text that has tokens of its own keeps them where it stands in a longer text, as long as a delimiter
follows it: no token of it becomes longer. Only the places of the tokens are others.
-/

namespace ArithCompiler.Lexer

theorem gap_nil : Gap [] := fun _ h => absurd h List.not_mem_nil

theorem gap_blank : Gap [' '] := by simp [Gap, gapCharacters]

theorem delimited_of_gapCharacter {c : Char} (h : c ∈ gapCharacters) (rest : List Char) :
    Delimited (c :: rest) := by
  refine delimited_cons ?_ rest
  simp only [gapCharacters, List.mem_cons, List.not_mem_nil, or_false] at h
  rcases h with rfl | rfl | rfl | rfl <;> decide

theorem delimited_gap {w rest : List Char} (hw : Gap w) (hrest : w = [] → Delimited rest) :
    Delimited (w ++ rest) := by
  cases w with
  | nil => exact hrest rfl
  | cons c w => exact delimited_of_gapCharacter (hw c List.mem_cons_self) _

section Parts

variable {Q R : List Token → Prop} {b : List Char}

theorem Scans.gap {w : List Char} (hw : Gap w) (hb : Scans b Q) : Scans (w ++ b) Q := by
  intro line col rest hrest
  obtain ⟨line', col', hgap⟩ := tokensFrom_gap hw line col (b ++ rest)
  obtain ⟨line'', col'', us, hus, heq⟩ := hb line' col' rest hrest
  exact ⟨line'', col'', us, hus, by rw [List.append_assoc, hgap, heq]⟩

/-- A token may be cut off before `b`, so it may be where more comes after `b`. -/
theorem Scans.token {kind : TokenKind} {v : List Char} (hv : Admissible kind v b) (hb : Scans b Q)
    (hR : ∀ (t : Token) us, t.kind = kind → t.text = String.ofList v → Q us → R (t :: us)) :
    Scans (v ++ b) R := by
  intro line col rest hrest
  obtain ⟨line', col', us, hus, heq⟩ := hb line (col + v.length) rest hrest
  refine ⟨line', col', ⟨kind, String.ofList v, line, col⟩ :: us, hR _ us rfl rfl hus, ?_⟩
  rw [List.append_assoc, tokensFrom_admissible (hv.append hrest), heq]
  cases tokensFrom line' col' rest <;> simp [Except.map]

end Parts

theorem scans_of_segments {cs : List Char} {vs : List (TokenKind × List Char)}
    (h : Segments cs vs) : Scans cs fun us => values us = vs := by
  induction h with
  | @done w hw =>
    rw [← List.append_nil w]
    exact .gap hw (scans_nil rfl)
  | token hw hv _ ih =>
    refine .gap hw (ih.token hv fun t us hkind htext hus => ?_)
    rw [values_cons, hus, hkind, htext, String.toList_ofList]

/-- The lexer reads along a segmentation, so a text that it reads has one. -/
theorem segments_of_tokens {source : String} {ts : List Token} {mark : Token}
    (h : tokenize source = .ok (ts ++ [mark])) : Segments source.toList (values ts) := by
  rcases segments_or_sticksAt source.toList with ⟨vs, hvs⟩ | ⟨c, rest, hstuck⟩
  · obtain ⟨us, mark', hus, -, -, rfl⟩ := tokensFrom_of_segments hvs 1 1
    obtain ⟨rfl, -⟩ := List.append_inj' (Except.ok.inj (h.symm.trans hus)) rfl
    exact hvs
  · obtain ⟨cause, line, col, herr, -⟩ := tokensFrom_of_sticksAt hstuck 1 1
    cases h.symm.trans herr

/-- Its own tokens are those that a text has in front of a delimiter. -/
theorem scans_of_tokens {source : String} {ts : List Token} {mark : Token}
    (h : tokenize source = .ok (ts ++ [mark])) :
    Scans source.toList fun us => values us = values ts :=
  scans_of_segments (segments_of_tokens h)

end ArithCompiler.Lexer

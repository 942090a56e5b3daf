import AlloyLexical.Proofs.Scanner.Passage

/-!
# Texts at fault

A text is at fault just where it goes on with something that is no lexeme
(`Lexeme.Offends`), behind lexemes that are none of them at fault
(`tokenize_eq_error_iff`). What comes before that place is a text without faults
and has the tokens that the scanner has passed until there.

The scanner comes to rest before a fault (`Scanner.rests_iff_offends`), and
reports it from where it rests, however far it had to look: of a literal or a
comment that is left open it is the opening that is reported. Only a number has
its whole extent in the span of the fault (`ScanFault.spanAt`).
-/

namespace AlloyLexical

/-- The span of a fault that begins at `p`: the digits of a number, and a single
    position otherwise. -/
def ScanFault.spanAt (file : Option String) (p : Position) : ScanFault → Span
  | numberOutOfRange digits => ⟨file, p, ⟨p.line, p.column + digits.length - 1⟩⟩
  | _ => .point file p

namespace Scanner

variable {s : Scanner} {ts : List Token}

/-! ## Resting before a fault -/

/-- Digits are all in one line, and the last one is in the column before the one
    that they lead to. -/
theorem back_past_digits (p : Position) {digits : List Char} (hne : digits ≠ [])
    (hdigits : ∀ d ∈ digits, d.isDigit) (hp : 1 ≤ p.column) :
    (p.past (fun _ => 1) digits).back = ⟨p.line, p.column + digits.length - 1⟩ := by
  have hline : '\n' ∉ digits := fun hmem => absurd (hdigits '\n' hmem) (by decide)
  have hlength : 0 < digits.length := List.length_pos_iff.2 hne
  have hback : 1 ≤ p.column + digits.length - 1 := by omega
  rw [Position.past_of_not_mem p hline]
  exact congrArg (Position.mk p.line) (Nat.max_eq_left hback)

/-- The scanner rests where its text offends, and reports that from there. -/
theorem rests_of_offends {f : ScanFault} (h : Lexeme.Offends s.text f)
    (hcolumn : 1 ≤ s.position.column) :
    Rests s (.error ⟨f, f.spanAt s.file s.position⟩) := by
  obtain ⟨c, cs, hs, hlexeme, hdigits⟩ := Lexeme.cut_of_offends h
  have hspan : s.faultSpan (s.past (Lexeme.cut c cs)) f = f.spanAt s.file s.position := by
    generalize s.text = text at h
    cases h with
    | @largeNumber digits rest hne hall _ _ =>
      rw [faultSpan, spanTo, past, hlexeme, hdigits _ rfl, String.toList_ofList, ScanFault.spanAt,
        String.length_ofList]
      exact congrArg (Span.mk s.file s.position) (back_past_digits s.position hne hall hcolumn)
    | openLiteral _ _ => rfl
    | openComment _ => rfl
    | strayCharacter _ _ _ _ _ => rfl
  have hrests := Rests.fault hs hlexeme
  rwa [hspan] at hrests

theorem rests_iff_offends {e : ScanError} (hcolumn : 1 ≤ s.position.column) :
    Rests s (.error e) ↔
      Lexeme.Offends s.text e.fault ∧ e.span = e.fault.spanAt s.file s.position := by
  constructor
  · intro h
    have hoffends : Lexeme.Offends s.text e.fault := by
      cases h with
      | fault hs hlexeme =>
        rw [hs]
        exact Lexeme.offends_of_cut hlexeme
    -- Where the scanner rests, there is only one answer it can give.
    have hsame := h.scan_eq.symm.trans (rests_of_offends hoffends hcolumn).scan_eq
    exact ⟨hoffends, congrArg ScanError.span (Except.error.inj hsame)⟩
  · rintro ⟨hoffends, hspan⟩
    have hrests := rests_of_offends hoffends hcolumn
    rwa [← hspan] at hrests

/-! ## What comes before -/

/-- What is passed at the head of a text is the text of the same tokens, if it
    ends there. -/
theorem Passes.exists_tokenize {text : String} (h : (ofText text none 0).Passes ts s) :
    ∃ before rest : String, text = before ++ rest ∧ s.text = rest.toList ∧
      tokenize before = .ok ts := by
  obtain ⟨mark, body, rfl, -, hhead⟩ := exists_mark text
  rw [hhead body List.prefix_rfl] at h
  obtain ⟨before, hbody, hpasses⟩ := h.exists_before
  have hbody : body.toList = before ++ s.text := hbody
  have hsplit : body = String.ofList before ++ String.ofList s.text := by
    rw [← String.ofList_append, ← hbody, String.ofList_toList]
  have hbefore : (String.ofList before).toList <+: body.toList := by
    rw [String.toList_ofList, hbody]
    exact List.prefix_append before s.text
  refine ⟨mark ++ String.ofList before, String.ofList s.text, ?_, String.toList_ofList.symm, ?_⟩
  · rw [hsplit, String.append_assoc]
  · rw [tokenize, hhead _ hbefore, String.toList_ofList]
    exact (hpasses.yields_of_rests (.ending rfl)).collect_eq

end Scanner

open Scanner in
/-- A text has an error just where, behind a text that has tokens, the scanner
    that has passed these tokens rests before something that is no lexeme. The
    error says what that is, and that it is there. -/
theorem tokenize_eq_error_iff {text : String} {e : ScanError} :
    tokenize text = .error e ↔ ∃ (before rest : String) (ts : List Token) (s : Scanner),
      text = before ++ rest ∧ tokenize before = .ok ts ∧
        (ofText text none 0).Passes ts s ∧ s.text = rest.toList ∧
        Lexeme.Offends rest.toList e.fault ∧ e.span = e.fault.spanAt none s.position := by
  have hcolumn {ts : List Token} {s : Scanner} (h : (ofText text none 0).Passes ts s) :
      1 ≤ s.position.column := h.one_le_column (Nat.le_refl 1)
  have hfile {ts : List Token} {s : Scanner} (h : (ofText text none 0).Passes ts s) :
      s.file = none := h.file_eq
  rw [tokenize_eq_error_iff_yields]
  constructor
  · rintro ⟨ts, s', hyields⟩
    obtain ⟨s, hpasses, hrests⟩ := exists_passes hyields
    obtain ⟨hoffends, hspan⟩ := (rests_iff_offends (hcolumn hpasses)).1 hrests
    obtain ⟨before, rest, htext, hs, hbefore⟩ := hpasses.exists_tokenize
    rw [hs] at hoffends
    rw [hfile hpasses] at hspan
    exact ⟨before, rest, ts, s, htext, hbefore, hpasses, hs, hoffends, hspan⟩
  · rintro ⟨_, rest, ts, s, -, -, hpasses, hs, hoffends, hspan⟩
    rw [← hs] at hoffends
    rw [← hfile hpasses] at hspan
    have hrests := (rests_iff_offends (hcolumn hpasses)).2 ⟨hoffends, hspan⟩
    exact ⟨ts, _, hpasses.yields_of_rests hrests⟩

/-- The star of the opening does not close a comment. -/
example : tokenize "a /*/ b" = .error ⟨.unterminatedComment, .point none ⟨1, 3⟩⟩ := by
  decide +kernel

end AlloyLexical

import AlloyLexical.Proofs.Scanner.Passage
import Mathlib.Logic.Function.Iterate

/-!
# Scan after scan

A scanner may be asked for tokens again and again, also after an error or an end
token (`Scanner.after`). It goes on behind most errors. Only the end of the text and
a character that begins nothing are *final* (`Scanner.IsFinal`): with any other
answer, a scan takes something off the text (`Scanner.exists_taken_of_not_isFinal`).
-/

namespace AlloyLexical

namespace Scanner

variable {s : Scanner}

/-- Whether an answer is one that the scanner repeats for ever: an end token, or an
    error at a character that begins nothing. -/
def IsFinal : Except ScanError Token → Prop
  | .ok t => t.kind = .eof
  | .error e => ∃ c, e.fault = .unexpectedCharacter c

/-- A scan whose answer is not final takes something off the text. -/
theorem exists_taken_of_not_isFinal (h : ¬IsFinal s.scan.1) :
    ∃ w, w ≠ [] ∧ s.text = w ++ s.scan.2.text := by
  induction s using layout_induction with
  | ending s hs =>
    rw [scan_nil hs] at h
    exact absurd rfl h
  | token s c cs kind payload hs hlexeme =>
    rw [scan_token hs hlexeme, hs]
    exact ⟨_, Cut.text_ne_nil (by simp [hlexeme]), (Cut.append_eq c cs).symm⟩
  | fault s c cs f hs hlexeme =>
    rw [scan_fault hs hlexeme] at h
    rw [scan_fault hs hlexeme, hs]
    refine ⟨_, Cut.text_ne_nil fun d hd => h ⟨d, ?_⟩, (Cut.append_eq c cs).symm⟩
    rw [hlexeme] at hd
    exact Lexeme.fault.inj hd
  | layout s c cs hs hlayout ih =>
    rw [scan_layout hs hlayout] at h ⊢
    obtain ⟨w, -, hw⟩ := ih h
    have hw : (Lexeme.cut c cs).rest = w ++ (s.past (Lexeme.cut c cs)).scan.2.text := hw
    refine ⟨(Lexeme.cut c cs).text ++ w, ?_, ?_⟩
    · exact List.append_ne_nil_of_left_ne_nil
        (Cut.text_ne_nil fun d => Lexeme.ne_fault_of_isLayout hlayout _) w
    · rw [hs, List.append_assoc, ← hw, Cut.append_eq]

/-- The scanner after `n` scans, whatever answers they gave. -/
def after (n : Nat) (s : Scanner) : Scanner := (fun s => s.scan.2)^[n] s

/-- The answer to the scan after `n` others. -/
def answer (n : Nat) (s : Scanner) : Except ScanError Token := (s.after n).scan.1

theorem after_succ (n : Nat) (s : Scanner) : s.after (n + 1) = (s.after n).scan.2 :=
  Function.iterate_succ_apply' _ n s

theorem steps_after (n : Nat) (s : Scanner) : Relation.ReflTransGen Step s (s.after n) := by
  induction n with
  | zero => exact .refl
  | succ n ih =>
    rw [after_succ]
    exact ih.trans (steps_scan (s.after n))

theorem suffix_ofText (text : String) (file : Option String) (precedingLines : Nat) :
    (ofText text file precedingLines).text <:+ text.toList := by
  obtain ⟨mark, body, rfl, -, hhead⟩ := exists_mark text
  rw [hhead body List.prefix_rfl, String.toList_append]
  exact List.suffix_append mark.toList body.toList

end Scanner

end AlloyLexical

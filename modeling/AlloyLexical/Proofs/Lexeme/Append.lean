import AlloyLexical.Proofs.Lexeme.Grammar

/-!
# Lexemes and what is behind them

What a text begins with is cut off in the same way where more text is put behind
it, as long as that is set apart from the lexeme:

* a comment that is opened by `/*` and a literal have an end of their own, and
  what follows it has no part in them;
* a comment that is opened by `//` or `--` has ended where a line feed follows;
* words, names, numbers and symbols have ended where a blank follows.

This is `Lexeme.cut_append`. A fault is no such lexeme, as a literal or a comment
that is left open may be closed by what follows.

Where the text ends sooner, a lexeme that it still has is cut off as well, be the
end set apart or not (`Lexeme.exists_cut_of_rest`).
-/

namespace AlloyLexical

/-- A text without the first character of what is behind another does not reach
    there. -/
theorem prefix_append_iff_of_head {e rest : List Char} (h : ∀ c ∈ rest.head?, c ∉ e)
    (s : List Char) : e <+: s ++ rest ↔ e <+: s := by
  refine ⟨fun hpre => ?_, fun hpre => hpre.trans (s.prefix_append rest)⟩
  induction e generalizing s with
  | nil => exact List.nil_prefix
  | cons c e ih =>
    rcases s with _ | ⟨d, s⟩
    · obtain ⟨tail, htail⟩ := hpre
      exact absurd List.mem_cons_self (h c (by rw [← List.nil_append rest, ← htail]; rfl))
    · rw [List.cons_append, List.cons_prefix_cons] at hpre
      exact List.cons_prefix_cons.2
        ⟨hpre.1, ih (fun c hc hmem => h c hc (List.mem_cons_of_mem _ hmem)) s hpre.2⟩

/-- A cut of a text that goes on with more text. -/
def Cut.followedBy (cut : Cut) (more : List Char) : Cut := { cut with rest := cut.rest ++ more }

namespace Lexeme

/-- Whether a text is at its end or goes on with a blank. -/
def StartsBlank (rest : List Char) : Prop := ∀ c ∈ rest.head?, isBlank c

namespace StartsBlank

variable {rest : List Char}

/-- What holds of all blanks holds of the one that comes first. -/
theorem head_of_blanks (h : StartsBlank rest) {P : Char → Prop}
    (hP : P ' ' ∧ P '\t' ∧ P '\r' ∧ P '\n' ∧ P '\x0c') : ∀ c ∈ rest.head?, P c := by
  intro c hc
  have hblank : c = ' ' ∨ c = '\t' ∨ c = '\r' ∨ c = '\n' ∨ c = '\x0c' := by
    simpa [isBlank, or_assoc] using h c hc
  obtain ⟨hspace, htab, hreturn, hline, hfeed⟩ := hP
  rcases hblank with rfl | rfl | rfl | rfl | rfl <;> assumption

/-- The head of a text with blanks behind it is that of the text, or a blank. -/
theorem head_append (h : StartsBlank rest) {P : Char → Prop} {cs : List Char}
    (hcs : ∀ c ∈ cs.head?, P c)
    (hP : P ' ' ∧ P '\t' ∧ P '\r' ∧ P '\n' ∧ P '\x0c') : ∀ c ∈ (cs ++ rest).head?, P c := by
  rcases cs with _ | ⟨c, cs⟩
  · exact h.head_of_blanks hP
  · exact hcs

theorem not_continues_append (h : StartsBlank rest) {cs : List Char} (hcs : ¬Word.continues cs) :
    ¬Word.continues (cs ++ rest) := by
  have hnot : ∀ c ∈ rest.head?, ¬Word.isWordChar c ∧ c ≠ '/' := h.head_of_blanks (by decide)
  rcases cs with _ | ⟨c, _ | ⟨d, cs⟩⟩
  · rcases rest with _ | ⟨c, rest⟩
    · exact hcs
    · simp [Word.continues, hnot c rfl]
  · -- A slash at the end has a blank behind it, and no letter.
    have hletter : Word.startsWithLetter rest = false := by
      rcases rest with _ | ⟨d, rest⟩
      · rfl
      · exact Bool.eq_false_iff.2 fun hd => (hnot d rfl).1 (Word.isWordChar_of_isAlpha hd)
    rw [Word.continues, Word.startsWithLetter, Bool.and_false] at hcs
    rwa [List.singleton_append, Word.continues, hletter, Bool.and_false]
  · exact hcs

theorem not_opens_append (h : StartsBlank rest) {cs : List Char} (hcs : ¬Comment.Opens cs) :
    ¬Comment.Opens (cs ++ rest) := by
  rintro (hpre | hpre | hpre) <;>
    rw [prefix_append_iff_of_head (h.head_of_blanks (by decide))] at hpre
  · exact hcs (.inl hpre)
  · exact hcs (.inr (.inl hpre))
  · exact hcs (.inr (.inr hpre))

end StartsBlank

namespace IsWritten

variable {l : Lexeme} {w rest more : List Char}

/-- A lexeme is written in the same way with more behind it that is set apart. -/
theorem append (h : IsWritten l w rest) (hblank : StartsBlank more)
    (hcomment : l = .comment → ∀ d ∈ more.head?, d = '\n') : IsWritten l w (rest ++ more) := by
  cases h with
  | blank hc => exact .blank hc
  | lineComment hc hbody hrest =>
    refine .lineComment hc hbody ?_
    rcases rest with _ | ⟨d, rest⟩
    · exact hcomment rfl
    · exact hrest
  | blockComment hbody => exact .blockComment hbody
  | word hmem hrest => exact .word hmem (hblank.head_append hrest (by decide))
  | symbol hmem hlongest hopens =>
    have hfree : ∀ e ∈ Lexicon.symbols, ' ' ∉ e.1.toList ∧ '\t' ∉ e.1.toList ∧
        '\r' ∉ e.1.toList ∧ '\n' ∉ e.1.toList ∧ '\x0c' ∉ e.1.toList := by decide
    refine .symbol hmem (fun e he hpre => hlongest e he ?_) ?_
    · rw [← List.append_assoc] at hpre
      exact (prefix_append_iff_of_head (hblank.head_of_blanks (hfree e he)) _).1 hpre
    · rw [← List.append_assoc]
      exact hblank.not_opens_append hopens
  | name hlabel hrest => exact .name hlabel (hblank.not_continues_append hrest)
  | number hne hdigits hrest hvalue =>
    exact .number hne hdigits (hblank.head_append hrest (by decide)) hvalue
  | literal hbody => exact .literal hbody

/-- A lexeme is written in the same way with less behind it. -/
theorem of_append (h : IsWritten l w (rest ++ more)) : IsWritten l w rest := by
  have hhead : ∀ c ∈ rest.head?, c ∈ (rest ++ more).head? := by
    rcases rest with _ | ⟨d, rest⟩
    · exact nofun
    · exact fun _ hc => hc
  cases h with
  | blank hc => exact .blank hc
  | lineComment hc hbody hrest => exact .lineComment hc hbody fun d hd => hrest d (hhead d hd)
  | blockComment hbody => exact .blockComment hbody
  | word hmem hrest => exact .word hmem fun d hd => hrest d (hhead d hd)
  | symbol hmem hlongest hopens =>
    rw [← List.append_assoc] at hlongest hopens
    have hpre {e : List Char} {s : List Char} (he : e <+: s ++ rest) : e <+: s ++ rest ++ more :=
      he.trans (List.prefix_append _ more)
    exact .symbol hmem (fun e he hmatch => hlongest e he (hpre hmatch))
      fun ho => hopens (ho.imp hpre (Or.imp hpre hpre))
  | name hlabel hrest => exact .name hlabel (Word.not_continues_of_append hrest)
  | number hne hdigits hrest hvalue =>
    exact .number hne hdigits (fun d hd => hrest d (hhead d hd)) hvalue
  | literal hbody => exact .literal hbody

end IsWritten

variable {c : Char} {cs rest : List Char}

/-- A text is cut as its lexeme is written. -/
theorem cut_eq_of_isWritten {l : Lexeme} {w rest : List Char} (h : IsWritten l w rest)
    (hcs : w ++ rest = c :: cs) : cut c cs = ⟨l, w, rest⟩ := by
  obtain ⟨c', cs', hcs', hcut⟩ := cut_of_isWritten h
  obtain ⟨rfl, rfl⟩ := List.cons.inj (hcs.symm.trans hcs')
  exact hcut

/-- What follows a lexeme that is no fault has no part in it, if it is set apart:
    behind a comment by a line feed, and by any blank behind other lexemes. -/
theorem cut_append (h : ∀ f, (cut c cs).lexeme ≠ .fault f) (hblank : StartsBlank rest)
    (hcomment : (cut c cs).lexeme = .comment → ∀ d ∈ rest.head?, d = '\n') :
    cut c (cs ++ rest) = (cut c cs).followedBy rest := by
  refine cut_eq_of_isWritten ((isWritten_cut h).append hblank hcomment) ?_
  rw [← List.append_assoc, Cut.append_eq]
  rfl

/-- A lexeme that is no fault is cut off in the same way where the text ends sooner
    behind it. -/
theorem exists_cut_of_rest {before : List Char} (h : ∀ f, (cut c cs).lexeme ≠ .fault f)
    (hrest : (cut c cs).rest = before ++ rest) :
    ∃ cs', cs = cs' ++ rest ∧ cut c cs' = { cut c cs with rest := before } := by
  have hwritten := isWritten_cut h
  have htext := Cut.append_eq c cs
  rw [hrest] at hwritten htext
  obtain ⟨c', cs', hcs', hcut⟩ := cut_of_isWritten hwritten.of_append
  rw [← List.append_assoc, hcs', List.cons_append] at htext
  obtain ⟨hc, hcs⟩ := List.cons.inj htext
  rw [hc] at hcut
  exact ⟨cs', hcs.symm, hcut⟩

end Lexeme

end AlloyLexical

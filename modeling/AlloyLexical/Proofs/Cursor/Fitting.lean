import AlloyLexical.Proofs.Cursor.Tracking

/-!
# Texts whose lines and columns are words

The lines and columns of a cursor are words, those of a scanner are numbers. A scanner
*fits* if its counters are words up to the end of its text, however this is made of
lines (`Scanner.Fits`). Then they are words in all spans it gives
(`Scanner.Fits.scan`), so that the cursor that tracks it gives the same answers
(`Cursor.answer_eq`).

At the head of a text this asks for no more than that the lines before the text and the
bytes of the text together can be counted in a word.
-/

namespace AlloyLexical

namespace Counters

theorem position_ofPosition {p : Position} (hline : p.line < UInt64.size)
    (hcolumn : p.column < UInt64.size) : (ofPosition p).position = p := by
  rw [ofPosition, position, UInt64.toNat_ofNat_of_lt' hline, UInt64.toNat_ofNat_of_lt' hcolumn]

end Counters

namespace Position

/-- Past a character that is no wider than its bytes, a position gets no further than
    these. -/
theorem next_le (p : Position) {c : Char} {width : Nat} (hwidth : width ≤ c.utf8Size) :
    (p.next c width).line ≤ p.line + c.utf8Size ∧
      (p.next c width).column ≤ p.column + c.utf8Size := by
  have hsize := c.utf8Size_pos
  rw [next]
  split
  · exact ⟨Nat.add_le_add_left hsize p.line, Nat.le_add_left_of_le hsize⟩
  · exact ⟨Nat.le_add_right _ _, Nat.add_le_add_left hwidth p.column⟩

theorem past_le {width : Char → Nat} (hwidth : ∀ c, width c ≤ c.utf8Size) (p : Position)
    (cs : List Char) : (p.past width cs).line ≤ p.line + String.utf8Len cs ∧
      (p.past width cs).column ≤ p.column + String.utf8Len cs := by
  induction cs generalizing p with
  | nil => exact ⟨Nat.le_refl _, Nat.le_refl _⟩
  | cons c cs ih =>
    have hc := p.next_le (hwidth c)
    have hcs := ih (p.next c (width c))
    rw [past_cons, String.utf8Len_cons]
    omega

end Position

namespace Lexeme

theorem width_le (l : Lexeme) (c : Char) : l.width c ≤ c.utf8Size := by
  rw [width.eq_def]
  split
  · exact Nat.le_refl _
  · exact Nat.le_refl _
  · exact c.utf8Size_pos

end Lexeme

/-- Words are enough for the span. -/
structure Span.Fits (b : Span) : Prop where
  startLine : b.start.line < UInt64.size
  startColumn : b.start.column < UInt64.size
  stopLine : b.stop.line < UInt64.size
  stopColumn : b.stop.column + 1 < UInt64.size

namespace Scanner

variable {s : Scanner}

/-- The counters stay within words to the end of the text. -/
structure Fits (s : Scanner) : Prop where
  line : s.position.line + String.utf8Len s.text < UInt64.size
  column : s.position.column + String.utf8Len s.text + 1 < UInt64.size

theorem Fits.past (h : s.Fits) {d : Char} {cs : List Char} (hs : s.text = d :: cs) :
    (s.past (Lexeme.cut d cs)).Fits := by
  have htext := congrArg String.utf8Len (hs.trans (Cut.append_eq d cs).symm)
  rw [String.utf8Len_append] at htext
  obtain ⟨hline, hcolumn⟩ :=
    Position.past_le (Lexeme.width_le (Lexeme.cut d cs).lexeme) s.position (Lexeme.cut d cs).text
  constructor
  · have := h.line
    show (s.position.past _ _).line + String.utf8Len (Lexeme.cut d cs).rest < _
    omega
  · have := h.column
    show (s.position.past _ _).column + String.utf8Len (Lexeme.cut d cs).rest + 1 < _
    omega

/-- The span of an answer. -/
def answerSpan : Except ScanError Token → Span
  | .ok t => t.span
  | .error e => e.span

theorem Fits.here (h : s.Fits) : s.here.Fits := by
  have hline := h.line
  have hcolumn := h.column
  constructor
  · show s.position.line < _
    omega
  · show s.position.column < _
    omega
  · show s.position.line < _
    omega
  · show s.position.column + 1 < _
    omega

theorem Fits.spanTo (h : s.Fits) {s' : Scanner} (h' : s'.Fits) : (s.spanTo s').Fits := by
  have hline := h'.line
  have hcolumn := h'.column
  have hsize : 2 < UInt64.size := by decide
  constructor
  · exact h.here.startLine
  · exact h.here.startColumn
  · show s'.position.line < _
    omega
  · show max (s'.position.column - 1) 1 + 1 < _
    omega

theorem Fits.faultSpan (h : s.Fits) {s' : Scanner} (h' : s'.Fits) (f : ScanFault) :
    (s.faultSpan s' f).Fits := by
  rw [Scanner.faultSpan.eq_def]
  split
  · exact h.spanTo h'
  · exact h.here

theorem Fits.scan (h : s.Fits) : (answerSpan s.scan.1).Fits ∧ s.scan.2.Fits := by
  induction s using layout_induction with
  | ending s hs =>
    rw [scan_nil hs]
    exact ⟨h.here, h⟩
  | token s d cs kind payload hs hlexeme =>
    rw [scan_token hs hlexeme]
    exact ⟨h.spanTo (h.past hs), h.past hs⟩
  | fault s d cs f hs hlexeme =>
    rw [scan_fault hs hlexeme]
    exact ⟨h.faultSpan (h.past hs) f, h.past hs⟩
  | layout s d cs hs hlayout ih =>
    rw [scan_layout hs hlayout]
    exact ih (h.past hs)

theorem Fits.after (h : s.Fits) (n : Nat) : (s.after n).Fits := by
  induction n with
  | zero => exact h
  | succ n ih =>
    rw [after_succ]
    exact ih.scan.2

theorem fits_ofText (text : String) (file : Option String) {precedingLines : Nat}
    (h : precedingLines + text.utf8ByteSize + 2 < UInt64.size) :
    (ofText text file precedingLines).Fits := by
  obtain ⟨before, hbefore⟩ := suffix_ofText text file precedingLines
  have hlen : String.utf8Len (ofText text file precedingLines).text ≤ text.utf8ByteSize := by
    have hsize := String.utf8Len_toList text
    rw [← hbefore, String.utf8Len_append] at hsize
    exact Nat.le_of_add_left_le hsize.le
  constructor
  · show 1 + precedingLines + _ < _
    omega
  · show 1 + _ + 1 < _
    omega

end Scanner

namespace Cursor

theorem InWords.eq {a b : Span} (h : InWords a b) (hb : b.Fits) : a = b := by
  have hstart := h.start.trans (Counters.position_ofPosition hb.startLine hb.startColumn)
  have hstop := (h.stop hb.stopColumn).trans
    (Counters.position_ofPosition hb.stopLine (Nat.lt_of_succ_lt hb.stopColumn))
  obtain ⟨file, start, stop⟩ := a
  obtain rfl : file = b.file := h.file
  obtain rfl : start = b.start := hstart
  obtain rfl : stop = b.stop := hstop
  rfl

theorem Reports.eq {a b : Except ScanError Token} (h : Reports a b)
    (hb : (Scanner.answerSpan b).Fits) : a = b := by
  cases h with
  | token hspan => rw [hspan.eq hb]
  | fault hspan => rw [hspan.eq hb]

/-- Where the lines and columns of a text can be counted in words, a scan of its bytes
    gives what a scan of its characters gives. -/
theorem answer_eq {text : String} {precedingLines : UInt64}
    (h : precedingLines.toNat + text.utf8ByteSize + 2 < UInt64.size) (file : Option String)
    (n : Nat) : (ofText text file precedingLines).answer n =
      .ok ((Scanner.ofText text file precedingLines.toNat).answer n) := by
  obtain ⟨c, hafter, hc, -⟩ := (tracks_ofText text file precedingLines).exists_after n
  obtain ⟨a, c', hscan, ha, -⟩ := hc.exists_scan
  rw [answer_of_scan hafter hscan, ha.eq ((Scanner.fits_ofText text file h).after n).scan.1]
  rfl

end Cursor

end AlloyLexical

import AlloyLexical.Proofs.Cursor.Tracking

/-!
# Progress of a cursor

A text may be scanned again and again, also after an error or an end token. Wherever
this leads, the cursor stands between two characters, as every scan leaves it where the
scanner of the characters is (`Cursor.Tracks.exists_scan`). So the next scan gives an
answer, too: there is a character wherever one is waited for, and a piece wherever one
is cut out.

There is an end to what the scans have to say. Each scan that does not give a *final*
answer leads on by one byte at least (`Cursor.Tracks.pos_lt_of_scan`), and from a final
answer on all answers are the same (`Cursor.Tracks.scan_of_isFinal`). So there are no
more scans without a final answer than the text has bytes
(`Cursor.Tracks.exists_isFinal_le`).

Only the end of the text and a character that begins nothing are final. Other errors
are reported once, and the cursor goes on behind them.
-/

namespace AlloyLexical

namespace Cursor

open Scanner (IsFinal)

variable {c c' : Cursor} {s : Scanner} {a : Except ScanError Token}

/-- After a final answer, the cursor stays where it is and gives the same answer. -/
theorem Tracks.scan_of_isFinal (h : c.Tracks s) (hscan : c.scan = .ok (a, c')) (ha : IsFinal a) :
    c'.scan = .ok (a, c') := by
  induction s using Scanner.layout_induction generalizing c with
  | ending s hs =>
    cases (h.scan_nil hs).symm.trans hscan
    exact hscan
  | token s d cs kind payload hs hlexeme =>
    have hmeets := h.meets_cut hs
    rw [hlexeme] at hmeets
    cases hmeets.scan_eq_of_token.symm.trans hscan
    exact absurd ha (Token.ne_eof_of_cut hlexeme)
  | fault s d cs f hs hlexeme =>
    have hmeets := h.meets_cut hs
    rw [hlexeme] at hmeets
    cases hmeets.scan_eq_of_fault.symm.trans hscan
    obtain ⟨d', hd'⟩ := ha
    obtain rfl : f = .unexpectedCharacter d' := hd'
    -- The cursor has gone over nothing.
    have hstay : c.pastCut (Lexeme.cut d cs) = c := by
      rw [Lexeme.cut_of_unexpected hlexeme]
      rfl
    rwa [hstay] at hscan ⊢
  | layout s d cs hs hlayout ih =>
    rw [(h.meets_cut hs).scan_eq_of_isLayout hlayout] at hscan
    exact ih (h.pastCut hs) hscan

theorem Reports.isFinal_iff {a b : Except ScanError Token} (h : Reports a b) :
    IsFinal a ↔ IsFinal b := by
  cases h with
  | token _ => rfl
  | fault _ => rfl

/-- A scan whose answer is not final leads on. -/
theorem Tracks.pos_lt_of_scan (h : c.Tracks s) (hscan : c.scan = .ok (a, c')) (ha : ¬IsFinal a) :
    c.pos < c'.pos := by
  obtain ⟨a', c'', hscan', hreports, h', htext⟩ := h.exists_scan
  cases hscan.symm.trans hscan'
  obtain ⟨w, hw, hs⟩ := Scanner.exists_taken_of_not_isFinal (hreports.isFinal_iff.not.1 ha)
  obtain ⟨before, hat⟩ := h.place
  obtain ⟨before', hat'⟩ := h'.place
  have hsize := hat.utf8ByteSize_eq
  rw [hs, encode_append, List.length_append, ← htext, hat'.utf8ByteSize_eq] at hsize
  have hpos : 0 < (encode w).length := by
    rw [length_encode]
    exact Nat.pos_of_ne_zero fun hzero => hw (String.utf8Len_eq_zero.1 hzero)
  omega

/-! ## Scan after scan -/

theorem Tracks.answer_eq_of_isFinal {n m : Nat} (h : c.Tracks s) (hn : c.answer n = .ok a)
    (ha : IsFinal a) (hnm : n ≤ m) : c.answer m = .ok a := by
  obtain ⟨c₁, hafter, h₁, -⟩ := h.exists_after n
  obtain ⟨a₁, c₂, hscan, -⟩ := h₁.exists_scan
  cases hn.symm.trans (answer_of_scan hafter hscan)
  have hsame : ∃ c', c.after m = .ok c' ∧ c'.scan = .ok (a, c₂) := by
    induction m, hnm using Nat.le_induction with
    | base => exact ⟨c₁, hafter, hscan⟩
    | succ m _ ih =>
      obtain ⟨c', hafter', hscan'⟩ := ih
      exact ⟨c₂, after_succ_of_scan hafter' hscan', h₁.scan_of_isFinal hscan ha⟩
  obtain ⟨c', hafter', hscan'⟩ := hsame
  exact answer_of_scan hafter' hscan'

/-- Without a final answer, each scan has gone over a byte or more. -/
theorem Tracks.le_pos_after {n : Nat} (h : c.Tracks s) (hafter : c.after n = .ok c')
    (hnot : ∀ m < n, ∀ a, c.answer m = .ok a → ¬IsFinal a) : n ≤ c'.pos := by
  induction n generalizing c' with
  | zero => exact Nat.zero_le _
  | succ n ih =>
    obtain ⟨c₁, hafter₁, h₁, -⟩ := h.exists_after n
    obtain ⟨a, c₂, hscan, -⟩ := h₁.exists_scan
    cases hafter.symm.trans (after_succ_of_scan hafter₁ hscan)
    have hle := ih hafter₁ fun m hm => hnot m (Nat.lt_succ_of_lt hm)
    have hnot := hnot n (Nat.lt_succ_self n) a (answer_of_scan hafter₁ hscan)
    exact Nat.lt_of_le_of_lt hle (h₁.pos_lt_of_scan hscan hnot)

theorem Tracks.pos_le (h : c.Tracks s) : c.pos ≤ c.text.utf8ByteSize := by
  obtain ⟨before, hat⟩ := h.place
  exact Nat.le_of_add_right_le hat.utf8ByteSize_eq.ge

/-- There are no more scans without a final answer than there are bytes. -/
theorem Tracks.exists_isFinal_le (h : c.Tracks s) :
    ∃ n ≤ c.text.utf8ByteSize, ∃ a, c.answer n = .ok a ∧ IsFinal a := by
  -- Otherwise there are more scans that go over a byte each than there are bytes.
  by_contra hnone
  obtain ⟨c', hafter, h', htext⟩ := h.exists_after (c.text.utf8ByteSize + 1)
  have hle := h.le_pos_after hafter fun m hm a ha hfinal =>
    hnone ⟨m, Nat.le_of_lt_succ hm, a, ha, hfinal⟩
  have hpos := h'.pos_le
  rw [htext] at hpos
  exact Nat.not_succ_le_self _ (hle.trans hpos)

/-- However often a text is scanned, there is an answer: no scan breaks off and none
    goes on for ever. The cursor stays within the text and between its characters.
    Every scan leads on or gives a final answer, which all further scans give as well;
    and there is such an answer when there have been as many scans as the text has
    bytes. -/
theorem scan_progress (text : String) (file : Option String) (precedingLines : UInt64) :
    let start := ofText text file precedingLines
    (∀ n, ∃ c a c', start.after n = .ok c ∧ c.scan = .ok (a, c') ∧
      start.answer n = .ok a ∧ start.after (n + 1) = .ok c' ∧
      c.text = text ∧ c.pos ≤ text.utf8ByteSize ∧ c.OnBoundary ∧ (c.pos < c'.pos ∨ IsFinal a)) ∧
    (∀ n m a, start.answer n = .ok a → IsFinal a → n ≤ m → start.answer m = .ok a) ∧
    ∃ a, IsFinal a ∧ ∀ n, text.utf8ByteSize ≤ n → start.answer n = .ok a := by
  intro start
  have hstart : start.Tracks (.ofText text file precedingLines.toNat) := tracks_ofText _ _ _
  refine ⟨fun n => ?_, fun n m a hn ha hnm => hstart.answer_eq_of_isFinal hn ha hnm, ?_⟩
  · obtain ⟨c, hafter, hc, htext⟩ := hstart.exists_after n
    obtain ⟨a, c', hscan, -⟩ := hc.exists_scan
    obtain ⟨before, hat⟩ := hc.place
    refine ⟨c, a, c', hafter, hscan, answer_of_scan hafter hscan, after_succ_of_scan hafter hscan,
      htext, ?_, hat.onBoundary, ?_⟩
    · have hpos := hc.pos_le
      rwa [htext] at hpos
    · by_cases ha : IsFinal a
      · exact .inr ha
      · exact .inl (hc.pos_lt_of_scan hscan ha)
  · obtain ⟨n, hn, a, hanswer, ha⟩ := hstart.exists_isFinal_le
    exact ⟨a, ha, fun m hm => hstart.answer_eq_of_isFinal hanswer ha (hn.trans hm)⟩

end Cursor

end AlloyLexical

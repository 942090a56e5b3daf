import AlloyLexical.Proofs.Scanner.Passage

/-!
# Scanning the lines of a text apart

A text may be scanned in fragments, if each of them is made of whole lines and is
scanned from the line it stands in: together the fragments have the tokens, or
the fault, that the whole text has (`tokenize_append_lines`).

* No lexeme goes on into the next line unless it has an end of its own there, so
  that a fragment without a fault is cut into lexemes as it would be alone
  (`Lexeme.cut_append`).
* Every lexeme leads the scanner as many lines on as it has line feeds, whatever
  it is. So the line in which a text ends is known all along
  (`Scanner.lastLine_of_scan`), and this is where the scanner stands when the
  next fragment begins (`Scanner.scan_followedBy`).
-/

namespace AlloyLexical

namespace Scanner

variable {s s' s'' : Scanner}

/-! ## Where a text ends -/

/-- The line in which the text before the scanner ends. -/
def lastLine (s : Scanner) : Nat := s.position.line + s.text.count '\n'

theorem lastLine_past {c : Char} {cs : List Char} (h : s.text = c :: cs) :
    (s.past (Lexeme.cut c cs)).lastLine = s.lastLine := by
  rw [lastLine, lastLine, past, Position.line_past, h, Nat.add_assoc, ← List.count_append,
    Cut.append_eq]

theorem lastLine_of_steps (h : Relation.ReflTransGen Step s s') :
    s'.lastLine = s.lastLine ∧ s'.file = s.file := by
  induction h with
  | refl => exact ⟨rfl, rfl⟩
  | tail _ hstep ih =>
    obtain ⟨c, cs, hs, rfl⟩ := hstep
    exact ⟨(lastLine_past hs).trans ih.1, ih.2⟩

/-- A scan leads on in the same text, also where there is a fault. -/
theorem lastLine_of_scan {a : Except ScanError Token} (h : s.scan = (a, s')) :
    s'.lastLine = s.lastLine ∧ s'.file = s.file := by
  have hs' : s.scan.2 = s' := congrArg Prod.snd h
  exact hs' ▸ lastLine_of_steps (steps_scan s)

/-! ## Texts with further lines -/

/-- The scanner with further lines behind its text. -/
def followedBy (s : Scanner) (lines : List Char) : Scanner :=
  { s with text := s.text ++ '\n' :: lines }

/-- The scanner at the head of the lines that follow its text. -/
def nextLines (s : Scanner) (lines : List Char) : Scanner := ⟨lines, ⟨s.lastLine + 1, 1⟩, s.file⟩

theorem nextLines_of_scan {a : Except ScanError Token} (h : s.scan = (a, s'))
    (lines : List Char) : s'.nextLines lines = s.nextLines lines := by
  rw [nextLines, nextLines, (lastLine_of_scan h).1, (lastLine_of_scan h).2]

/-- A lexeme that is no fault is the same one with further lines behind it. -/
theorem cut_append_lines {c : Char} {cs : List Char}
    (h : ∀ f, (Lexeme.cut c cs).lexeme ≠ .fault f) (lines : List Char) :
    Lexeme.cut c (cs ++ '\n' :: lines) = (Lexeme.cut c cs).followedBy ('\n' :: lines) := by
  refine Lexeme.cut_append h ?_ fun _ => ?_
  · rintro _ ⟨⟩
    rfl
  · rintro _ ⟨⟩
    rfl

theorem text_followedBy {c : Char} {cs : List Char} (h : s.text = c :: cs) (lines : List Char) :
    (s.followedBy lines).text = c :: (cs ++ '\n' :: lines) := congrArg (· ++ '\n' :: lines) h

/-- Before a lexeme that is no fault, further lines make no difference. -/
theorem past_followedBy {c : Char} {cs : List Char}
    (h : ∀ f, (Lexeme.cut c cs).lexeme ≠ .fault f) (lines : List Char) :
    (s.followedBy lines).past (Lexeme.cut c (cs ++ '\n' :: lines)) =
      (s.past (Lexeme.cut c cs)).followedBy lines := by
  rw [cut_append_lines h]
  rfl

/-- Up to the end of a text, further lines make no difference. There the scanner
    goes on at the head of these lines. -/
theorem scan_followedBy {t : Token} (h : s.scan = (.ok t, s')) (lines : List Char) :
    (s.followedBy lines).scan =
      if t.kind = .eof then (s.nextLines lines).scan else (.ok t, s'.followedBy lines) := by
  induction s using layout_induction with
  | ending s hs =>
    rw [scan_nil hs] at h
    obtain ⟨ht, -⟩ := Prod.mk.inj h
    have htext : (s.followedBy lines).text = '\n' :: lines := congrArg (· ++ '\n' :: lines) hs
    -- The line feed is the only lexeme before the lines.
    rw [← Except.ok.inj ht, if_pos (show (Token.eof s.here).kind = .eof from rfl),
      scan_layout htext rfl, nextLines, lastLine, hs]
    rfl
  | token s c cs kind payload hs hlexeme =>
    have hfault : ∀ f, (Lexeme.cut c cs).lexeme ≠ .fault f := by simp [hlexeme]
    rw [scan_token hs hlexeme] at h
    obtain ⟨ht, rfl⟩ := Prod.mk.inj h
    rw [← Except.ok.inj ht, if_neg (Token.ne_eof_of_cut hlexeme),
      scan_token (text_followedBy hs lines) (by rw [cut_append_lines hfault]; exact hlexeme),
      past_followedBy hfault]
    rfl
  | fault s c cs fault hs hlexeme =>
    rw [scan_fault hs hlexeme] at h
    cases (Prod.mk.inj h).1
  | layout s c cs hs hlayout ih =>
    have hfault := Lexeme.ne_fault_of_isLayout hlayout
    rw [scan_layout hs hlayout] at h
    rw [scan_layout (text_followedBy hs lines) (by rw [cut_append_lines hfault]; exact hlayout),
      past_followedBy hfault, ih h, nextLines, nextLines, lastLine_past hs]
    rfl

/-! ## Scanning to the end -/

/-- A text with further lines yields the tokens of the text, and then what these
    lines yield. -/
theorem yields_followedBy {ts us : List Token} {z : Token} {a : Except ScanError Token}
    {lines : List Char} (h : source.Yields s ts (.ok z) s')
    (hlines : source.Yields (s.nextLines lines) us a s'') :
    source.Yields (s.followedBy lines) (ts ++ us) a s'' := by
  generalize hok : (Except.ok z : Except ScanError Token) = b at h
  induction h with
  | done hscan hz =>
    subst hok
    have hend := scan_followedBy hscan lines
    rw [if_pos (show z.kind = .eof from hz)] at hend
    exact hlines.congr hend
  | next hscan ht _ ih =>
    have hstep := scan_followedBy hscan lines
    rw [if_neg ht] at hstep
    rw [← nextLines_of_scan hscan] at hlines
    exact .next hstep ht (ih hlines hok)

/-! ## The head of a text -/

theorem ofText_append_lines (a b : String) (file : Option String) (precedingLines : Nat) :
    ofText (a ++ "\n" ++ b) file precedingLines =
      (ofText a file precedingLines).followedBy b.toList := by
  have htext : (a ++ "\n" ++ b).toList = a.toList ++ '\n' :: b.toList := by
    rw [String.toList_append, String.toList_append, List.append_assoc]
    rfl
  rw [ofText, ofText, htext, followedBy]
  rcases a.toList with _ | ⟨c, cs⟩
  · rfl
  · by_cases hc : c = '\uFEFF'
    · rw [hc]
      rfl
    · simp [hc]

/-- A byte order mark is no line feed. -/
theorem lastLine_ofText (text : String) (file : Option String) (precedingLines : Nat) :
    (ofText text file precedingLines).lastLine = 1 + precedingLines + text.toList.count '\n' := by
  rw [lastLine, ofText]
  rcases text.toList with _ | ⟨c, cs⟩
  · rfl
  · by_cases hc : c = '\uFEFF'
    · rw [hc]
      rfl
    · simp [hc]

theorem nextLines_ofText (a : String) {b : String} (hb : ∀ c ∈ b.toList.head?, c ≠ '\uFEFF')
    (file : Option String) (precedingLines : Nat) :
    (ofText a file precedingLines).nextLines b.toList =
      ofText b file (1 + precedingLines + a.toList.count '\n') := by
  rw [nextLines, lastLine_ofText, Nat.add_comm _ 1,
    ← text_ofText hb file (1 + precedingLines + a.toList.count '\n')]
  rfl

end Scanner

open Scanner in
/-- A text and the lines behind it have the tokens of the text and then those of
    the lines, scanned from where they stand. A fault in these lines is the fault
    of the whole. -/
theorem tokenize_append_lines {a b : String} {ts : List Token} (ha : tokenize a = .ok ts)
    (hb : ∀ c ∈ b.toList.head?, c ≠ '\uFEFF') :
    tokenize (a ++ "\n" ++ b) =
      (source.collect (ofText b none (1 + a.toList.count '\n'))).map (ts ++ ·) := by
  obtain ⟨z, s, hts⟩ := tokenize_eq_ok_iff_yields.1 ha
  obtain ⟨us, answer, s', hus⟩ :=
    (finishes (ofText b none (1 + a.toList.count '\n'))).exists_yields
  have hlines := hus
  rw [← nextLines_ofText a hb none 0] at hlines
  rw [tokenize, ofText_append_lines, (yields_followedBy hts hlines).collect_eq, hus.collect_eq]
  cases answer <;> rfl

/-- A text that ends in a comment, and lines that begin in one. -/
theorem tokenize_append_lines_of_comments :
    tokenize "a // b" = .ok [⟨.ident, some (.label "a"), .point none ⟨1, 1⟩⟩] ∧
      (∀ c ∈ "/*\n*/c".toList.head?, c ≠ '\uFEFF') ∧
      tokenize ("a // b" ++ "\n" ++ "/*\n*/c") =
        .ok [⟨.ident, some (.label "a"), .point none ⟨1, 1⟩⟩,
          ⟨.ident, some (.label "c"), .point none ⟨3, 3⟩⟩] := by
  have ha : tokenize "a // b" = .ok [⟨.ident, some (.label "a"), .point none ⟨1, 1⟩⟩] := by
    decide +kernel
  have hb : ∀ c ∈ "/*\n*/c".toList.head?, c ≠ '\uFEFF' := by simp
  refine ⟨ha, hb, ?_⟩
  rw [tokenize_append_lines ha hb]
  decide +kernel

end AlloyLexical

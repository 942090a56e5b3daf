import AlloyLexical.Proofs.Cursor.Scan
import AlloyLexical.Proofs.Scanner.Progress

/-!
# Cursors and scanners

A cursor in the bytes of a text does what a scanner does in its characters. It *tracks*
the scanner (`Cursor.Tracks`): it stands before the same characters and has counted the
same lines and columns, in words.

* At the head of a text, the cursor tracks the scanner (`Cursor.tracks_ofText`), behind
  a byte order mark as well as without one.
* Where it tracks the scanner, a scan gives an answer, which is that of the scanner, and
  the cursor still tracks the scanner (`Cursor.Tracks.exists_scan`), also after an error.
* So it does after any number of scans (`Cursor.Tracks.exists_after`).
-/

namespace AlloyLexical

namespace Counters

/-- A position in words. -/
def ofPosition (p : Position) : Counters := ⟨.ofNat p.line, .ofNat p.column⟩

/-- What is gone over as a character takes one column. -/
theorem past_ofPosition (p : Position) (c : Char) :
    (ofPosition p).past c = ofPosition (p.next c 1) := by
  rw [past, Position.next]
  split
  · rw [nextLine, ofPosition, ofPosition, UInt64.ofNat_add]
    rfl
  · rw [nextColumn, ofPosition, ofPosition, UInt64.ofNat_add]
    rfl

theorem foldl_past (p : Position) (cs : List Char) :
    cs.foldl past (ofPosition p) = ofPosition (p.past (fun _ => 1) cs) := by
  induction cs generalizing p with
  | nil => rfl
  | cons c cs ih => rw [List.foldl_cons, past_ofPosition, ih, Position.past_cons]

/-- What is gone over byte by byte takes as many columns as bytes. -/
theorem foldl_past_encode (p : Position) (cs : List Char) :
    (Cursor.encode cs).foldl past (ofPosition p) = ofPosition (p.past Char.utf8Size cs) := by
  induction cs generalizing p with
  | nil => rfl
  | cons c cs ih =>
    have hchar : p.past (fun _ => 1) (Cursor.encodeChar c) = p.next c c.utf8Size := by
      by_cases hc : c = '\n'
      · rw [hc]
        rfl
      · have hbytes : '\n' ∉ Cursor.encodeChar c := fun hmem =>
          Cursor.ne_of_mem_encodeChar (by decide) hc _ hmem rfl
        rw [Position.past_of_not_mem p hbytes, Cursor.length_encodeChar, Position.next, if_neg hc]
    rw [Cursor.encode_cons, List.foldl_append, foldl_past, hchar, ih, Position.past_cons]

end Counters

namespace Cursor

variable {c c' c'' : Cursor} {s s' : Scanner} {a : Except ScanError Token}

/-- The cursor stands where the scanner stands, and has counted what the scanner has
    counted, in words. -/
structure Tracks (c : Cursor) (s : Scanner) : Prop where
  place : ∃ before, c.At before s.text
  counters : c.counters = .ofPosition s.position
  file : c.file = s.file

/-- The span `a` is `b` in words. If the counters have gone round within the last
    character, there is no saying where `a` stops. -/
structure InWords (a b : Span) : Prop where
  file : a.file = b.file
  start : a.start = (Counters.ofPosition b.start).position
  stop : b.stop.column + 1 < UInt64.size → a.stop = (Counters.ofPosition b.stop).position

/-- The answers are the same but for their spans, and these are the same in words. -/
inductive Reports : Except ScanError Token → Except ScanError Token → Prop
  | token {kind : TokenKind} {payload : Option Payload} {a b : Span} : InWords a b →
    Reports (.ok ⟨kind, payload, a⟩) (.ok ⟨kind, payload, b⟩)
  | fault {f : ScanFault} {a b : Span} : InWords a b → Reports (.error ⟨f, a⟩) (.error ⟨f, b⟩)

theorem Tracks.pastBytes {w rest : List Char} (h : c.Tracks s) (hs : s.text = w ++ rest) :
    (c.pastBytes (encode w)).Tracks ⟨rest, s.position.past Char.utf8Size w, s.file⟩ where
  place := by
    obtain ⟨before, hat⟩ := h.place
    rw [hs] at hat
    exact ⟨_, hat.pastBytes⟩
  counters := by
    rw [Cursor.pastBytes, h.counters]
    exact Counters.foldl_past_encode s.position w
  file := h.file

theorem Tracks.pastChars {w rest : List Char} (h : c.Tracks s) (hs : s.text = w ++ rest) :
    (c.pastChars w).Tracks ⟨rest, s.position.past (fun _ => 1) w, s.file⟩ where
  place := by
    obtain ⟨before, hat⟩ := h.place
    rw [hs] at hat
    exact ⟨_, hat.pastChars⟩
  counters := by
    rw [Cursor.pastChars, h.counters]
    exact Counters.foldl_past s.position w
  file := h.file

/-- Past the same lexeme, the cursor still tracks the scanner. -/
theorem Tracks.pastCut {d : Char} {cs : List Char} (h : c.Tracks s) (hs : s.text = d :: cs) :
    (c.pastCut (Lexeme.cut d cs)).Tracks (s.past (Lexeme.cut d cs)) := by
  rw [← Cut.append_eq d cs] at hs
  generalize Lexeme.cut d cs = cut at hs ⊢
  rw [Cursor.pastCut, Scanner.past]
  split
  · next hlexeme =>
    rw [hlexeme]
    exact h.pastBytes hs
  · next hlexeme =>
    rw [hlexeme]
    exact h.pastBytes hs
  · next hcomment hopen =>
    have hwidth : cut.lexeme.width = fun _ => 1 := by
      funext d
      rw [Lexeme.width.eq_def]
      split
      · next hlexeme => exact absurd hlexeme hcomment
      · next hlexeme => exact absurd hlexeme hopen
      · rfl
    rw [hwidth]
    exact h.pastChars hs

theorem text_pastCut (c : Cursor) (cut : Cut) : (c.pastCut cut).text = c.text := by
  rw [Cursor.pastCut]
  split <;> rfl

theorem Tracks.inWords_here (h : c.Tracks s) : InWords c.here s.here where
  file := h.file
  start := congrArg Counters.position h.counters
  stop _ := congrArg Counters.position h.counters

theorem Tracks.inWords_spanTo (h : c.Tracks s) (h' : c'.Tracks s') :
    InWords (c.spanTo c') (s.spanTo s') where
  file := h.file
  start := congrArg Counters.position h.counters
  stop hstop := by
    have hle : s'.position.column ≤ (s.spanTo s').stop.column + 1 :=
      Nat.le_add_of_sub_le (Nat.le_max_left _ _)
    have hcolumn := UInt64.toNat_ofNat_of_lt' (Nat.lt_of_le_of_lt hle hstop)
    have hback := UInt64.toNat_ofNat_of_lt' (Nat.lt_of_succ_lt hstop)
    show c'.counters.position.back = _
    rw [h'.counters]
    refine congrArg (Position.mk _) ?_
    show max ((UInt64.ofNat s'.position.column).toNat - 1) 1 = _
    rw [hcolumn]
    exact hback.symm

theorem Tracks.inWords_faultSpan (h : c.Tracks s) (h' : c'.Tracks s') (f : ScanFault) :
    InWords (c.faultSpan c' f) (s.faultSpan s' f) := by
  cases f with
  | numberOutOfRange digits => exact h.inWords_spanTo h'
  | unterminatedString => exact h.inWords_here
  | unterminatedComment => exact h.inWords_here
  | unexpectedCharacter d => exact h.inWords_here

/-! ## Scans -/

theorem Tracks.scan_nil (h : c.Tracks s) (hs : s.text = []) :
    c.scan = .ok (.ok (Token.eof c.here), c) := by
  obtain ⟨before, hat⟩ := h.place
  have hpeek : c.peek = none := by
    rw [hat.peek_eq, hs]
    rfl
  rw [scan, skipTrivia_of_none hpeek]
  show c.readToken = _
  rw [readToken, hpeek]

/-- The cursor meets the lexemes that the scanner meets. -/
theorem Tracks.meets_cut {d : Char} {cs : List Char} (h : c.Tracks s) (hs : s.text = d :: cs) :
    c.Meets (Lexeme.cut d cs).lexeme (c.pastCut (Lexeme.cut d cs)) := by
  obtain ⟨before, hat⟩ := h.place
  rw [hs] at hat
  exact hat.meets_cut

/-- A scan of bytes gives an answer, which is that of the scanner. -/
theorem Tracks.exists_scan (h : c.Tracks s) :
    ∃ a c', c.scan = .ok (a, c') ∧ Reports a s.scan.1 ∧ c'.Tracks s.scan.2 ∧ c'.text = c.text := by
  induction s using Scanner.layout_induction generalizing c with
  | ending s hs =>
    rw [Scanner.scan_nil hs]
    exact ⟨_, c, h.scan_nil hs, .token h.inWords_here, h, rfl⟩
  | token s d cs kind payload hs hlexeme =>
    have hmeets := h.meets_cut hs
    rw [hlexeme] at hmeets
    have hpast := h.pastCut hs
    rw [Scanner.scan_token hs hlexeme]
    exact ⟨_, _, hmeets.scan_eq_of_token, .token (h.inWords_spanTo hpast), hpast,
      text_pastCut c _⟩
  | fault s d cs f hs hlexeme =>
    have hmeets := h.meets_cut hs
    rw [hlexeme] at hmeets
    have hpast := h.pastCut hs
    rw [Scanner.scan_fault hs hlexeme]
    exact ⟨_, _, hmeets.scan_eq_of_fault, .fault (h.inWords_faultSpan hpast f), hpast,
      text_pastCut c _⟩
  | layout s d cs hs hlayout ih =>
    rw [(h.meets_cut hs).scan_eq_of_isLayout hlayout, Scanner.scan_layout hs hlayout]
    obtain ⟨a, c', hscan, ha, h', htext⟩ := ih (h.pastCut hs)
    exact ⟨a, c', hscan, ha, h', htext.trans (text_pastCut c _)⟩

theorem after_succ_of_scan {n : Nat} (h : c.after n = .ok c') (hscan : c'.scan = .ok (a, c'')) :
    c.after (n + 1) = .ok c'' := by
  rw [after, h, Crash.ok_bind, hscan]
  rfl

theorem answer_of_scan {n : Nat} (h : c.after n = .ok c') (hscan : c'.scan = .ok (a, c'')) :
    c.answer n = .ok a := by
  rw [answer, h, Crash.ok_bind, hscan]
  rfl

theorem Tracks.exists_after (h : c.Tracks s) (n : Nat) :
    ∃ c', c.after n = .ok c' ∧ c'.Tracks (s.after n) ∧ c'.text = c.text := by
  induction n with
  | zero => exact ⟨c, rfl, h, rfl⟩
  | succ n ih =>
    obtain ⟨c', hafter, h', htext'⟩ := ih
    obtain ⟨a, c'', hscan, -, h'', htext''⟩ := h'.exists_scan
    rw [Scanner.after_succ]
    exact ⟨c'', after_succ_of_scan hafter hscan, h'', htext''.trans htext'⟩

theorem mark_prefix_iff (text : String) :
    ['\xEF', '\xBB', '\xBF'] <+: bytes text ↔ text.toList.head? = some '\uFEFF' := by
  have hmark : encodeChar '\uFEFF' = ['\xEF', '\xBB', '\xBF'] := by decide
  rw [bytes_eq, ← hmark]
  constructor
  · intro h
    rcases htext : text.toList with _ | ⟨d, cs⟩
    · rw [htext] at h
      exact absurd (List.prefix_nil.1 h) (by rw [hmark]; exact List.cons_ne_nil _ _)
    · rw [htext] at h
      rw [eq_of_prefix_encode h]
      rfl
  · intro h
    obtain ⟨cs, hcs⟩ := List.head?_eq_some_iff.1 h
    rw [hcs, encode_cons]
    exact List.prefix_append _ _

theorem tracks_ofText (text : String) (file : Option String) (precedingLines : UInt64) :
    (ofText text file precedingLines).Tracks (.ofText text file precedingLines.toNat) where
  place := by
    rw [ofText, Scanner.ofText]
    simp only [mark_prefix_iff]
    split
    · next hmark =>
      obtain ⟨cs, hcs⟩ := List.head?_eq_some_iff.1 hmark
      rw [hcs]
      exact ⟨['\uFEFF'], hcs, rfl⟩
    · next hmark =>
      refine ⟨[], ?_, rfl⟩
      split
      · next cs hcs => exact absurd (by rw [hcs]; rfl) hmark
      · rfl
  counters := by
    rw [ofText, Scanner.ofText, Counters.ofPosition, UInt64.ofNat_add, UInt64.ofNat_toNat]
    rfl
  file := rfl

end Cursor

end AlloyLexical

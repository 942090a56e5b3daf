import AlloyLexical.Lexeme

/-!
# Scanner

A *scanner* stands in a text and hands out its tokens one by one. It knows the
text before it, the position of that text's first character and the file the
text belongs to, if there is one.

A scan passes over layout up to the next token or fault and hands it out,
together with the scanner that stands after it:

* a token spans from its first character to its last;
* a number out of range is reported over its digits, every other fault at its
  first character;
* at the end of the text the scanner hands out an end token and stays.

A byte order mark at the head of a text belongs to none of its columns.

Here a text is made of characters, and lines and columns are any numbers. A `Cursor`
does the same in the bytes of a text, and counts in words.
-/

namespace AlloyLexical

/-- A place to scan from. -/
structure Scanner where
  text : List Char
  position : Position
  file : Option String

namespace Scanner

/-- The scanner at the head of a text. The text may be a part of a file that
    has `precedingLines` lines before it. -/
def ofText (text : String) (file : Option String) (precedingLines : Nat) : Scanner where
  text := match text.toList with
    | '\uFEFF' :: cs => cs
    | cs => cs
  position := ⟨1 + precedingLines, 1⟩
  file := file

/-- A text without a byte order mark is scanned from its first character. -/
theorem text_ofText {text : String} (h : ∀ c ∈ text.toList.head?, c ≠ '\uFEFF')
    (file : Option String) (precedingLines : Nat) :
    (ofText text file precedingLines).text = text.toList := by
  rw [ofText]
  split
  · next hmark =>
    exact absurd rfl (h '\uFEFF' (by rw [hmark]; rfl))
  · rfl

/-- The scanner after the first lexeme. -/
def past (s : Scanner) (cut : Cut) : Scanner :=
  { s with text := cut.rest, position := s.position.past cut.lexeme.width cut.text }

/-- The span of what stands between two scanners. -/
def spanTo (s s' : Scanner) : Span := ⟨s.file, s.position, s'.position.back⟩

/-- The span of the character before the scanner. -/
def here (s : Scanner) : Span := Span.point s.file s.position

/-- The span of a fault between two scanners. -/
def faultSpan (s s' : Scanner) : ScanFault → Span
  | .numberOutOfRange _ => s.spanTo s'
  | _ => s.here

/-- The next token, or the fault that is there instead. -/
def scan (s : Scanner) : Except ScanError Token × Scanner :=
  match h : s.text with
  | [] => (.ok (Token.eof s.here), s)
  | c :: cs =>
    let s' := s.past (Lexeme.cut c cs)
    match hlexeme : (Lexeme.cut c cs).lexeme with
    | .token kind payload => (.ok ⟨kind, payload, s.spanTo s'⟩, s')
    | .fault fault => (.error ⟨fault, s.faultSpan s' fault⟩, s')
    | .blank | .comment =>
      -- Layout is passed over, and the text becomes shorter.
      have : s'.text.length < s.text.length := by
        rw [h]
        exact Cut.length_rest_lt (by simp [hlexeme])
      s'.scan
termination_by s.text.length

/-! ## One step of a scan -/

/-- At the end of the text. -/
theorem scan_nil {s : Scanner} (h : s.text = []) : s.scan = (.ok (Token.eof s.here), s) := by
  rw [scan]
  split
  · rfl
  · next h' => simp [h] at h'

/-- Before the text of a token. -/
theorem scan_token {s : Scanner} {c : Char} {cs : List Char} {kind : TokenKind}
    {payload : Option Payload} (h : s.text = c :: cs)
    (hcut : (Lexeme.cut c cs).lexeme = .token kind payload) :
    s.scan = (.ok ⟨kind, payload, s.spanTo (s.past (Lexeme.cut c cs))⟩,
      s.past (Lexeme.cut c cs)) := by
  rw [scan]
  split
  · next h' => simp [h] at h'
  · next h' =>
    obtain ⟨rfl, rfl⟩ := List.cons.inj (h.symm.trans h')
    split <;> simp_all

/-- Before a fault. -/
theorem scan_fault {s : Scanner} {c : Char} {cs : List Char} {fault : ScanFault}
    (h : s.text = c :: cs) (hcut : (Lexeme.cut c cs).lexeme = .fault fault) :
    s.scan = (.error ⟨fault, s.faultSpan (s.past (Lexeme.cut c cs)) fault⟩,
      s.past (Lexeme.cut c cs)) := by
  rw [scan]
  split
  · next h' => simp [h] at h'
  · next h' =>
    obtain ⟨rfl, rfl⟩ := List.cons.inj (h.symm.trans h')
    split <;> simp_all

/-- Before layout. -/
theorem scan_layout {s : Scanner} {c : Char} {cs : List Char} (h : s.text = c :: cs)
    (hcut : (Lexeme.cut c cs).lexeme.isLayout) : s.scan = (s.past (Lexeme.cut c cs)).scan := by
  conv => lhs; rw [scan]
  split
  · next h' => simp [h] at h'
  · next h' =>
    obtain ⟨rfl, rfl⟩ := List.cons.inj (h.symm.trans h')
    split <;> simp_all [Lexeme.isLayout]

/-- What holds at the end of a text, before tokens and before faults, and before
    layout if it holds behind it, holds everywhere. -/
@[elab_as_elim]
theorem layout_induction {motive : Scanner → Prop} (s : Scanner)
    (ending : ∀ s : Scanner, s.text = [] → motive s)
    (token : ∀ (s : Scanner) (c : Char) (cs : List Char) (kind : TokenKind)
      (payload : Option Payload), s.text = c :: cs →
      (Lexeme.cut c cs).lexeme = .token kind payload → motive s)
    (fault : ∀ (s : Scanner) (c : Char) (cs : List Char) (fault : ScanFault), s.text = c :: cs →
      (Lexeme.cut c cs).lexeme = .fault fault → motive s)
    (layout : ∀ (s : Scanner) (c : Char) (cs : List Char), s.text = c :: cs →
      (Lexeme.cut c cs).lexeme.isLayout → motive (s.past (Lexeme.cut c cs)) → motive s) :
    motive s := by
  fun_induction scan s with
  | case1 s hs => exact ending s hs
  | case2 s c cs hs s' kind payload hlexeme => exact token s c cs kind payload hs hlexeme
  | case3 s c cs hs s' f hlexeme => exact fault s c cs f hs hlexeme
  | case4 s c cs hs s' hlexeme _ ih => exact layout s c cs hs (by rw [hlexeme]; rfl) ih
  | case5 s c cs hs s' hlexeme _ ih => exact layout s c cs hs (by rw [hlexeme]; rfl) ih

/-! ## Progress -/

/-- A scan that hands out a token takes it off the text. -/
theorem length_lt_of_scan {s s' : Scanner} {t : Token} (h : s.scan = (.ok t, s'))
    (ht : t.kind ≠ .eof) : s'.text.length < s.text.length := by
  fun_induction scan s with
  | case1 s hs =>
    cases h
    exact absurd rfl ht
  | case2 s c cs hs s'' kind payload hlexeme =>
    rw [← (Prod.mk.inj h).2, hs]
    exact Cut.length_rest_lt (by simp [hlexeme])
  | case3 => cases h
  | case4 s c cs hs s'' hlexeme hlt ih => exact Nat.lt_trans (ih h) hlt
  | case5 s c cs hs s'' hlexeme hlt ih => exact Nat.lt_trans (ih h) hlt

end Scanner

end AlloyLexical

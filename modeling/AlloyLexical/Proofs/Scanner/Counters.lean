import AlloyLexical.Proofs.Scanner.Progress
import Mathlib.Data.List.DropRight

/-!
# The pieces behind a scanner

Whatever a scanner has met on its way, it has got past *pieces* of its text, which are
lexemes as they are written and what is lost to faults (`Dissected`). Of the latter, a
comment that is left open is a comment as well, up to the end of the text, whereas a
literal that is left open is none.

The pieces say where they end (`Position.behind`). The line is told by the line feeds.
The column is told by what has come since the last of them, where

* a character that stands in a comment counts with all of its bytes,
* any other character counts once.

Every step of a scanner passes one piece (`Scanner.getsPast_cut`), and any number of
steps passes some (`Scanner.exists_getsPast_of_steps`). The position is moved character
by character (`Position.foldl_step`), be it by layout, by a token or by a fault.
-/

namespace AlloyLexical

/-! ## What is lost to faults -/

namespace Lexeme

/-- The text `w` is lost to the fault, and the text behind it, `rest`, is not. A
    literal that is left open is lost up to the end of its line, a comment up to
    the end of the text and a number with all of its digits; of a character that
    begins nothing, nothing is lost. -/
inductive IsLost : ScanFault → List Char → List Char → Prop
  | openLiteral {body content rest : List Char} : Quoted.Decodes body content →
    (∀ c ∈ rest.head?, c = '\n') → IsLost .unterminatedString ('"' :: body) rest
  | openEscape {body content : List Char} : Quoted.Decodes body content →
    IsLost .unterminatedString ('"' :: (body ++ ['\\'])) []
  | openComment {cs : List Char} : ¬['*', '/'] <:+: cs →
    IsLost .unterminatedComment ('/' :: '*' :: cs) []
  | largeNumber {digits rest : List Char} : digits ≠ [] → (∀ d ∈ digits, d.isDigit) →
    (∀ d ∈ rest.head?, ¬d.isDigit) → numberBound ≤ Nat.ofDigitChars 10 digits 0 →
    IsLost (.numberOutOfRange (String.ofList digits)) digits rest
  | strayCharacter {c : Char} {cs : List Char} : ¬isBlank c → c ≠ '"' → ¬c.isDigit →
    ¬c.isAlpha → (∀ e ∈ Lexicon.symbols, e.1.toList.head? ≠ some c) →
    IsLost (.unexpectedCharacter c) [] (c :: cs)

theorem isLost_cutQuoted {body content tail : List Char} (hbody : Quoted.Decodes body content)
    (htail : Quoted.LeavesOpen tail) :
    IsLost .unterminatedString (cutQuoted '"' (body ++ tail)).text
      (cutQuoted '"' (body ++ tail)).rest := by
  rw [cutQuoted, Quoted.read_of_decodes hbody]
  rcases htail with rfl | rfl | htail
  · show IsLost _ ('"' :: (body ++ [])) []
    rw [List.append_nil]
    refine .openLiteral hbody ?_
    rintro _ ⟨⟩
  · exact .openEscape hbody
  · obtain ⟨lines, rfl⟩ := List.head?_eq_some_iff.1 htail
    show IsLost _ ('"' :: (body ++ [])) ('\n' :: lines)
    rw [List.append_nil]
    refine .openLiteral hbody ?_
    rintro _ ⟨⟩
    rfl

/-- What is cut off with a fault is lost to it. -/
theorem isLost_cut {c : Char} {cs : List Char} {f : ScanFault}
    (h : (cut c cs).lexeme = .fault f) : IsLost f (cut c cs).text (cut c cs).rest := by
  have hoffends := offends_of_cut h
  generalize htext : c :: cs = text at hoffends
  cases hoffends with
  | openLiteral hbody htail =>
    obtain ⟨rfl, rfl⟩ := List.cons.inj htext
    exact isLost_cutQuoted hbody htail
  | @openComment body hopen =>
    obtain ⟨rfl, rfl⟩ := List.cons.inj htext
    show IsLost _ (cutBlock '/' '*' body).text (cutBlock '/' '*' body).rest
    rw [cutBlock, (Comment.close?_eq_none_iff body).2 hopen]
    exact .openComment hopen
  | @largeNumber digits rest hne hdigits hrest hlarge =>
    obtain ⟨c', cs', hcs', hcut⟩ :=
      IsWritten.cut_number (l := ofDigits digits) hne hdigits hrest rfl
    obtain ⟨rfl, rfl⟩ := List.cons.inj (htext.trans hcs')
    rw [hcut]
    exact .largeNumber hne hdigits hrest hlarge
  | strayCharacter hblank hquote hdigit halpha hsymbol =>
    obtain ⟨rfl, rfl⟩ := List.cons.inj htext
    rw [cut_of_strayCharacter cs hblank hquote hdigit halpha hsymbol]
    exact .strayCharacter hblank hquote hdigit halpha hsymbol

end Lexeme

/-! ## Pieces of a text -/

/-- A piece of a text, and what it is. -/
structure Piece where
  lexeme : Lexeme
  text : List Char

namespace Piece

/-- Whether the piece is a comment, be it closed or not. -/
def isComment (p : Piece) : Bool :=
  match p.lexeme with
  | .comment | .fault .unterminatedComment => true
  | _ => false

theorem width_eq (p : Piece) (c : Char) :
    p.lexeme.width c = if p.isComment then c.utf8Size else 1 := by
  rw [Lexeme.width.eq_def, isComment]
  split <;> simp_all

/-- The text of some pieces, one after the other. -/
def written (ps : List Piece) : List Char := ps.flatMap text

/-- The characters of some pieces, one after the other, each with whether it stands
    in a comment. -/
def marked (ps : List Piece) : List (Char × Bool) :=
  ps.flatMap fun p => p.text.map (·, p.isComment)

theorem map_fst_marked (ps : List Piece) : (marked ps).map Prod.fst = written ps := by
  rw [marked, written, List.map_flatMap]
  congr 1
  funext p
  rw [List.map_map]
  exact List.map_id p.text

end Piece

/-- The text is made of the pieces, one after the other, and of the rest behind
    them. -/
inductive Dissected : List Char → List Piece → List Char → Prop
  | nil {rest : List Char} : Dissected rest [] rest
  | written {l : Lexeme} {w cs rest : List Char} {ps : List Piece} : l.IsWritten w cs →
    Dissected cs ps rest → Dissected (w ++ cs) (⟨l, w⟩ :: ps) rest
  | lost {f : ScanFault} {w cs rest : List Char} {ps : List Piece} : Lexeme.IsLost f w cs →
    Dissected cs ps rest → Dissected (w ++ cs) (⟨.fault f, w⟩ :: ps) rest

theorem Dissected.append {cs cs' rest : List Char} {ps qs : List Piece} (h : Dissected cs ps cs')
    (h' : Dissected cs' qs rest) : Dissected cs (ps ++ qs) rest := by
  induction h with
  | nil => exact h'
  | written hw _ ih => exact .written hw (ih h')
  | lost hw _ ih => exact .lost hw (ih h')

theorem Dissected.eq_append {cs rest : List Char} {ps : List Piece} (h : Dissected cs ps rest) :
    cs = Piece.written ps ++ rest := by
  induction h with
  | nil => rfl
  | written _ _ ih => rw [ih, Piece.written, Piece.written, List.flatMap_cons, List.append_assoc]
  | lost _ _ ih => rw [ih, Piece.written, Piece.written, List.flatMap_cons, List.append_assoc]

/-! ## Counting -/

namespace Position

/-- The characters since the last line feed. -/
def sinceLine (ms : List (Char × Bool)) : List (Char × Bool) := ms.rtakeWhile (·.1 ≠ '\n')

/-- The columns that characters take: one for each that stands in no comment, and
    one for each byte of the others. -/
def columns (ms : List (Char × Bool)) : Nat :=
  ms.countP (!·.2) + (String.ofList ((ms.filter (·.2)).map Prod.fst)).utf8ByteSize

/-- The position behind the pieces that a text begins with, if there are so many
    lines before the text. -/
def behind (precedingLines : Nat) (ps : List Piece) : Position where
  line := 1 + precedingLines + (Piece.written ps).count '\n'
  column := 1 + columns (sinceLine (Piece.marked ps))

/-- The position behind a character, which may stand in a comment. -/
def step (p : Position) (m : Char × Bool) : Position := p.next m.1 (if m.2 then m.1.utf8Size else 1)

theorem columns_concat (ms : List (Char × Bool)) (m : Char × Bool) :
    columns (ms ++ [m]) = columns ms + if m.2 then m.1.utf8Size else 1 := by
  obtain ⟨c, b⟩ := m
  simp only [columns, List.countP_append, List.filter_append, List.map_append, String.ofList_append,
    String.utf8ByteSize_append]
  cases b
  · simp
    omega
  · simp
    omega

/-- From the head of a line, a walk counts the line feeds, and the columns since the
    last of them. -/
theorem foldl_step (line : Nat) (ms : List (Char × Bool)) :
    ms.foldl step ⟨line, 1⟩ =
      ⟨line + (ms.map Prod.fst).count '\n', 1 + columns (sinceLine ms)⟩ := by
  induction ms using List.reverseRecOn with
  | nil => rfl
  | append_singleton ms m ih =>
    have hsince : sinceLine (ms ++ [m]) = if m.1 ≠ '\n' then sinceLine ms ++ [m] else [] := by
      simp [sinceLine, List.rtakeWhile_concat]
    rw [List.foldl_concat, ih, step, next, hsince, List.map_append, List.count_append]
    by_cases hm : m.1 = '\n'
    · simp [hm, columns]
      omega
    · simp [hm, columns_concat]
      omega

theorem past_eq_foldl_step (p : Position) (piece : Piece) :
    p.past piece.lexeme.width piece.text =
      (piece.text.map (·, piece.isComment)).foldl step p := by
  rw [List.foldl_map, past]
  congr 1
  funext q c
  rw [step, piece.width_eq]

/-- Where no comment has a character of several bytes, columns are characters. -/
theorem columns_eq_length {ms : List (Char × Bool)} (h : ∀ m ∈ ms, m.2 → m.1.utf8Size = 1) :
    columns ms = ms.length := by
  induction ms using List.reverseRecOn with
  | nil => rfl
  | append_singleton ms m ih =>
    rw [List.forall_mem_append, List.forall_mem_singleton] at h
    rw [columns_concat, ih h.1, List.length_append, List.length_singleton]
    split
    · next hm => rw [h.2 hm]
    · rfl

theorem length_sinceLine (ps : List Piece) :
    (sinceLine (Piece.marked ps)).length = ((Piece.written ps).rtakeWhile (· ≠ '\n')).length := by
  rw [sinceLine, ← Piece.map_fst_marked, List.rtakeWhile, List.rtakeWhile, ← List.map_reverse,
    List.takeWhile_map, List.length_reverse, List.length_reverse, List.length_map]
  rfl

/-- Behind pieces with nothing but ASCII in the comments, columns are the characters of
    the line. -/
theorem columns_of_ascii {ps : List Piece}
    (h : ∀ p ∈ ps, p.isComment → ∀ c ∈ p.text, c.val ≤ 127) :
    columns (sinceLine (Piece.marked ps)) =
      ((Piece.written ps).rtakeWhile (· ≠ '\n')).length := by
  have hmarked : ∀ m ∈ Piece.marked ps, m.2 → m.1.utf8Size = 1 := by
    intro m hm hcomment
    obtain ⟨p, hp, hm⟩ := List.mem_flatMap.1 hm
    obtain ⟨c, hc, rfl⟩ := List.mem_map.1 hm
    exact Char.utf8Size_eq_one_iff.2 (h p hp hcomment c hc)
  have hsince := (List.rtakeWhile_suffix (·.1 ≠ '\n') (Piece.marked ps)).subset
  rw [← length_sinceLine]
  exact columns_eq_length fun m hm => hmarked m (hsince hm)

end Position

/-! ## Getting past pieces -/

/-- What is cut off a text is its first piece. -/
theorem Dissected.cut {c : Char} {cs rest : List Char} {ps : List Piece}
    (h : Dissected (Lexeme.cut c cs).rest ps rest) :
    Dissected (c :: cs) (⟨(Lexeme.cut c cs).lexeme, (Lexeme.cut c cs).text⟩ :: ps) rest := by
  rw [← Cut.append_eq c cs]
  by_cases hfault : ∃ f, (Lexeme.cut c cs).lexeme = .fault f
  · obtain ⟨f, hf⟩ := hfault
    rw [hf]
    exact .lost (Lexeme.isLost_cut hf) h
  · exact .written (Lexeme.isWritten_cut (not_exists.1 hfault)) h

namespace Scanner

variable {s s' s'' : Scanner} {ps qs : List Piece}

/-- The scanner has got from `s` to `s'`, past the pieces, and moved its counters
    with each of their characters. -/
structure GetsPast (s : Scanner) (ps : List Piece) (s' : Scanner) : Prop where
  dissected : Dissected s.text ps s'.text
  position : s'.position = (Piece.marked ps).foldl Position.step s.position

theorem GetsPast.refl (s : Scanner) : s.GetsPast [] s := ⟨.nil, rfl⟩

theorem GetsPast.trans (h : s.GetsPast ps s') (h' : s'.GetsPast qs s'') :
    s.GetsPast (ps ++ qs) s'' where
  dissected := h.dissected.append h'.dissected
  position := by
    rw [Piece.marked, List.flatMap_append, List.foldl_append, ← Piece.marked, ← h.position]
    exact h'.position

theorem getsPast_cut {c : Char} {cs : List Char} (hs : s.text = c :: cs) :
    s.GetsPast [⟨(Lexeme.cut c cs).lexeme, (Lexeme.cut c cs).text⟩] (s.past (Lexeme.cut c cs)) where
  dissected := by
    rw [hs]
    exact .cut .nil
  position := by
    rw [Piece.marked, List.flatMap_singleton, ← Position.past_eq_foldl_step]
    rfl

theorem exists_getsPast_of_steps (h : Relation.ReflTransGen Step s s') :
    ∃ ps, s.GetsPast ps s' := by
  induction h with
  | refl => exact ⟨[], .refl s⟩
  | tail _ hstep ih =>
    obtain ⟨ps, hps⟩ := ih
    obtain ⟨c, cs, hs, rfl⟩ := hstep
    exact ⟨_, hps.trans (getsPast_cut hs)⟩

/-- Whether the text begins with what the token is made of; an end token is made of
    nothing. -/
def Begins (t : Token) (text : List Char) : Prop :=
  (t.kind = .eof ∧ text = []) ∨
    ∃ w rest, text = w ++ rest ∧ (Lexeme.token t.kind t.payload).IsWritten w rest

/-- A token that is handed out starts where the scanner has got to past layout. -/
theorem exists_getsPast_of_scan {t : Token} (h : s.scan = (.ok t, s')) :
    ∃ layout s₁, s.GetsPast layout s₁ ∧ (∀ p ∈ layout, p.lexeme.isLayout) ∧
      t.span.start = s₁.position ∧ Begins t s₁.text := by
  induction s using layout_induction with
  | ending s hs =>
    rw [scan_nil hs] at h
    cases h
    exact ⟨[], _, .refl _, List.forall_mem_nil _, rfl, .inl ⟨rfl, hs⟩⟩
  | token s c cs kind payload hs hlexeme =>
    rw [scan_token hs hlexeme] at h
    cases h
    have hw := @Lexeme.isWritten_cut c cs (by simp [hlexeme])
    rw [hlexeme] at hw
    exact ⟨[], s, .refl s, List.forall_mem_nil _, rfl,
      .inr ⟨_, _, hs.trans (Cut.append_eq c cs).symm, hw⟩⟩
  | fault s c cs fault hs hlexeme =>
    rw [scan_fault hs hlexeme] at h
    cases h
  | layout s c cs hs hlayout ih =>
    rw [scan_layout hs hlayout] at h
    obtain ⟨layout, s₁, hpast, hall, ht⟩ := ih h
    exact ⟨_, s₁, (getsPast_cut hs).trans hpast, List.forall_mem_cons.2 ⟨hlayout, hall⟩, ht⟩

/-! ## From the head of a text -/

theorem toList_eq_text_ofText (text : String) (file : Option String) (precedingLines : Nat) :
    text.toList = '\uFEFF' :: (ofText text file precedingLines).text ∨
      text.toList.head? ≠ some '\uFEFF' ∧
        text.toList = (ofText text file precedingLines).text := by
  by_cases hmark : text.toList.head? = some '\uFEFF'
  · obtain ⟨cs, hcs⟩ := List.head?_eq_some_iff.1 hmark
    left
    rw [ofText, hcs]
    rfl
  · right
    refine ⟨hmark, (text_ofText ?_ file precedingLines).symm⟩
    rintro c hc rfl
    exact hmark hc

theorem position_of_getsPast {text : String} {file : Option String} {precedingLines : Nat}
    (h : (ofText text file precedingLines).GetsPast ps s') :
    s'.position = .behind precedingLines ps := by
  rw [h.position, ofText, Position.foldl_step, Piece.map_fst_marked]
  rfl

end Scanner

end AlloyLexical

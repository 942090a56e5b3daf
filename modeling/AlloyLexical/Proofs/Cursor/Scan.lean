import AlloyLexical.Proofs.Cursor.Loops
import AlloyLexical.Proofs.Lexeme.Grammar

/-!
# What a cursor meets

A scan of bytes finds the same lexemes as there are in the characters. Where a cursor
stands between two characters, it meets the first lexeme of the text ahead and goes over
all of it (`Cursor.At.meets_cut`):

* layout is passed over, and the scan goes on behind it;
* a token is the answer, and so is a fault; the cursor is left behind what they are
  written in.

A comment is gone over byte by byte and anything else character by character
(`Cursor.pastCut`). There is one lemma for each sort of lexeme, which puts together what
the loops do that read it.
-/

namespace AlloyLexical

/-- Where there was no crash, a program goes on. -/
theorem Crash.ok_bind {α β : Type} (a : α) (f : α → Except Crash β) :
    ((Except.ok a : Except Crash α) >>= f) = f a := rfl

namespace Cursor

variable {c c' : Cursor} {d : Char} {before cs : List Char}

/-! ## Lexemes -/

/-- The cursor after a lexeme. A comment is gone over byte by byte, anything else
    character by character. -/
def pastCut (c : Cursor) (cut : Cut) : Cursor :=
  match cut.lexeme with
  | .comment | .fault .unterminatedComment => c.pastBytes (encode cut.text)
  | _ => c.pastChars cut.text

/-- The span of a fault between two cursors. -/
def faultSpan (c c' : Cursor) : ScanFault → Span
  | .numberOutOfRange _ => c.spanTo c'
  | _ => c.here

/-- A scan from `c` makes of the first lexeme what the lexeme is, and `c'` stands
    behind it: layout is passed over, anything else is the answer. -/
inductive Meets (c : Cursor) : Lexeme → Cursor → Prop
  | layout {l : Lexeme} {c' : Cursor} : l.isLayout → c.scan = c'.scan → Meets c l c'
  | token {kind : TokenKind} {payload : Option Payload} {c' : Cursor} :
    c.scan = .ok (.ok ⟨kind, payload, c.spanTo c'⟩, c') → Meets c (.token kind payload) c'
  | fault {f : ScanFault} {c' : Cursor} : c.scan = .ok (.error ⟨f, c.faultSpan c' f⟩, c') →
    Meets c (.fault f) c'

theorem Meets.scan_eq_of_isLayout {l : Lexeme} (h : c.Meets l c') (hl : l.isLayout) :
    c.scan = c'.scan := by
  cases h with
  | layout _ hscan => exact hscan
  | token _ => cases hl
  | fault _ => cases hl

theorem Meets.scan_eq_of_token {kind : TokenKind} {payload : Option Payload}
    (h : c.Meets (.token kind payload) c') :
    c.scan = .ok (.ok ⟨kind, payload, c.spanTo c'⟩, c') := by
  cases h with
  | layout hl _ => cases hl
  | token hscan => exact hscan

theorem Meets.scan_eq_of_fault {f : ScanFault} (h : c.Meets (.fault f) c') :
    c.scan = .ok (.error ⟨f, c.faultSpan c' f⟩, c') := by
  cases h with
  | layout hl _ => cases hl
  | fault hscan => exact hscan

theorem scan_congr (h : c.skipTrivia = c'.skipTrivia) : c.scan = c'.scan := by
  rw [scan, scan, h]

theorem At.meets_blank (h : c.At before (d :: cs)) (hd : Lexeme.isBlank d) :
    c.Meets .blank (c.pastChars [d]) := by
  have hascii : d.val ≤ 127 := ascii_of_isBlank hd
  have hpeek : c.peek = some (lead d) := h.peek_eq
  rw [lead_of_ascii hascii] at hpeek
  refine .layout rfl (scan_congr ?_)
  rw [skipTrivia_of_some hpeek, if_pos hd, h.advance_eq hascii]

theorem At.meets_line (h : c.At before (d :: cs)) (hd : d = '/' ∨ d = '-')
    (hcs : cs.head? = some d) : c.Meets .comment (c.pastCut (Lexeme.cutLine (d :: cs))) := by
  have hascii : d.val ≤ 127 := by rcases hd with rfl | rfl <;> decide
  have hblank : ¬Lexeme.isBlank d := by rcases hd with rfl | rfl <;> decide
  have hpeek : c.peek = some (lead d) := h.peek_eq
  have hpeekAt : c.peekAt 1 = some d := (h.peekAt_one_iff hascii hascii).2 hcs
  rw [lead_of_ascii hascii] at hpeek
  refine .layout rfl (scan_congr ?_)
  rw [skipTrivia_of_some hpeek, if_neg hblank, if_pos ⟨hd, hpeekAt⟩, h.skipLine_eq]
  rfl

theorem At.meets_block (h : c.At before ('/' :: '*' :: cs)) :
    c.Meets (Lexeme.cutBlock '/' '*' cs).lexeme (c.pastCut (Lexeme.cutBlock '/' '*' cs)) := by
  have hpeek : c.peek = some '/' := h.peek_eq
  have hpeekAt : c.peekAt 1 = some '*' := (h.peekAt_one_iff (by decide) (by decide)).2 rfl
  have hskip := skipTrivia_of_some hpeek
  rw [if_neg (by decide), if_neg (by simp [hpeekAt]), if_pos ⟨rfl, hpeekAt⟩, h.skipBlock_eq]
    at hskip
  rw [Lexeme.cutBlock]
  rcases hclose : Comment.close? cs with _ | ⟨text, rest⟩
  · rw [hclose] at hskip
    refine .fault ?_
    rw [scan, hskip]
    rfl
  · rw [hclose] at hskip
    exact .layout rfl (scan_congr hskip)

/-- Before anything but layout, a scan reads a token. -/
theorem At.scan_eq_readToken (h : c.At before (d :: cs)) (hblank : ¬Lexeme.isBlank d)
    (hline : ¬((d = '/' ∨ d = '-') ∧ cs.head? = some d))
    (hblock : ¬(d = '/' ∧ cs.head? = some '*')) : c.scan = c.readToken := by
  have hpeek : c.peek = some (lead d) := h.peek_eq
  have hlead : ¬Lexeme.isBlank (lead d) := by
    rwa [(isUniform_of_ascii fun _ => ascii_of_isBlank).apply_lead]
  have hnotLine : ¬((lead d = '/' ∨ lead d = '-') ∧ c.peekAt 1 = some (lead d)) := by
    simp (disch := decide) only [lead_eq_iff]
    rintro ⟨hd, hpeekAt⟩
    have hascii : d.val ≤ 127 := by rcases hd with rfl | rfl <;> decide
    rw [lead_of_ascii hascii, h.peekAt_one_iff hascii hascii] at hpeekAt
    exact hline ⟨hd, hpeekAt⟩
  have hnotBlock : ¬(lead d = '/' ∧ c.peekAt 1 = some '*') := by
    simp (disch := decide) only [lead_eq_iff]
    rintro ⟨rfl, hpeekAt⟩
    rw [h.peekAt_one_iff (by decide) (by decide)] at hpeekAt
    exact hblock ⟨rfl, hpeekAt⟩
  rw [scan, skipTrivia_of_some hpeek, if_neg hlead, if_neg hnotLine, if_neg hnotBlock]

theorem At.meets_quoted (h : c.At before ('"' :: cs)) (hscan : c.scan = c.readString) :
    c.Meets (Lexeme.cutQuoted '"' cs).lexeme (c.pastCut (Lexeme.cutQuoted '"' cs)) := by
  have hadvance : c.advance = c.pastChars ['"'] := h.advance_eq (by decide)
  have hread := (h.pastChars (w := ['"'])).readContent_eq []
  rw [← hadvance] at hread
  rw [readString, hread, hadvance, ← pastChars_append] at hscan
  rw [Lexeme.cutQuoted]
  rcases hcontent : (Quoted.read cs).content with _ | content
  · rw [hcontent] at hscan
    exact .fault hscan
  · rw [hcontent] at hscan
    exact .token hscan

theorem At.meets_number (h : c.At before (d :: cs)) (hscan : c.scan = c.readNumber) :
    c.Meets (Lexeme.cutNumber (d :: cs)).lexeme (c.pastCut (Lexeme.cutNumber (d :: cs))) := by
  have hdigits := h.advanceWhile_eq fun _ => ascii_of_isDigit
  have hslice := h.slice_takeWhile Char.isDigit
  rw [readNumber, hdigits] at hscan
  simp only [hslice, Crash.ok_bind, String.toList_ofList] at hscan
  rw [Lexeme.cutNumber, Lexeme.ofDigits]
  dsimp only
  split
  · next hvalue =>
    rw [if_pos hvalue] at hscan
    exact .token hscan
  · next hvalue =>
    rw [if_neg hvalue] at hscan
    exact .fault hscan

theorem At.meets_word (h : c.At before (d :: cs)) (hscan : c.scan = c.readWord) :
    c.Meets (Lexeme.cutWord (d :: cs)).lexeme (c.pastCut (Lexeme.cutWord (d :: cs))) := by
  have hword := h.advanceWhile_eq fun _ => ascii_of_isWordChar
  have hslice := h.slice_takeWhile Word.isWordChar
  have hbehind := h.pastChars_takeWhile Word.isWordChar
  rw [readWord, hword] at hscan
  simp only [hslice, Crash.ok_bind, String.toList_ofList] at hscan
  rw [Lexeme.cutWord]
  rcases hkind : Lexicon.word? ((d :: cs).takeWhile Word.isWordChar) with _ | kind
  · have hname := Word.fst_qualified (d :: cs)
    rw [← Word.qualified_append (d :: cs)] at h
    have hskip : (c.pastChars ((d :: cs).takeWhile Word.isWordChar)).skipParts =
        c.pastChars (Word.qualified (d :: cs)).1 := by
      rw [hbehind.skipParts_eq (not_of_head_dropWhile _ _), ← pastChars_append, ← hname]
    simp only [hkind, hskip, h.slice_pastChars, Crash.ok_bind] at hscan
    exact .token hscan
  · simp only [hkind] at hscan
    exact .token hscan

theorem At.meets_symbol (h : c.At before (d :: cs)) (hscan : c.scan = c.readSymbol) :
    c.Meets (Lexeme.cutSymbol d cs).lexeme (c.pastCut (Lexeme.cutSymbol d cs)) := by
  rw [readSymbol, h.restOfText_eq] at hscan
  simp only [Crash.ok_bind, symbol?_encode] at hscan
  rw [Lexeme.cutSymbol]
  rcases hsymbol : Lexicon.symbol? (d :: cs) with _ | ⟨w, kind⟩
  · simp only [hsymbol, h.strayCharacter_eq, Crash.ok_bind] at hscan
    exact .fault hscan
  · obtain ⟨hmem, ⟨rest, hrest⟩, -⟩ := Lexicon.longest_of_symbol? hsymbol
    have hascii : ∀ d ∈ w, d.val ≤ 127 := by
      simpa using ascii_of_symbol hmem
    have hbytes : c.rest = w ++ encode rest := by
      rw [h.rest_eq, ← hrest, encode_append, encode_of_ascii hascii]
    simp only [hsymbol, advanceBy_eq hbytes, ← pastChars_of_ascii c hascii] at hscan
    exact .token hscan

theorem At.readToken_eq (h : c.At before (d :: cs)) : c.readToken =
    if d = '"' then c.readString
    else if d.isDigit then c.readNumber
    else if d.isAlpha then c.readWord
    else c.readSymbol := by
  have hpeek : c.peek = some (lead d) := h.peek_eq
  have hdigit : (lead d).isDigit = d.isDigit :=
    (isUniform_of_ascii fun _ => ascii_of_isDigit).apply_lead d
  have halpha : (lead d).isAlpha = d.isAlpha :=
    (isUniform_of_ascii fun _ => ascii_of_isAlpha).apply_lead d
  rw [readToken, hpeek]
  simp (disch := decide) only [lead_eq_iff, hdigit, halpha]

/-- A scan of bytes cuts off the same lexemes as there are in the characters. -/
theorem At.meets_cut (h : c.At before (d :: cs)) :
    c.Meets (Lexeme.cut d cs).lexeme (c.pastCut (Lexeme.cut d cs)) := by
  rw [Lexeme.cut]
  split
  · next hblank => exact h.meets_blank hblank
  next hblank =>
  split
  · next hline => exact h.meets_line hline.1 hline.2
  next hline =>
  split
  · next hblock =>
    obtain ⟨rfl, hhead⟩ := hblock
    obtain ⟨cs, rfl⟩ := List.head?_eq_some_iff.1 hhead
    exact h.meets_block
  next hblock =>
  have hscan := h.scan_eq_readToken hblank hline hblock
  rw [h.readToken_eq] at hscan
  split at hscan
  · next hquote =>
    obtain rfl := hquote
    rw [if_pos rfl]
    exact h.meets_quoted hscan
  next hquote =>
  rw [if_neg hquote]
  split at hscan
  · next hdigit =>
    rw [if_pos hdigit]
    exact h.meets_number hscan
  next hdigit =>
  rw [if_neg hdigit]
  split at hscan
  · next halpha =>
    rw [if_pos halpha]
    exact h.meets_word hscan
  · next halpha =>
    rw [if_neg halpha]
    exact h.meets_symbol hscan

end Cursor

end AlloyLexical

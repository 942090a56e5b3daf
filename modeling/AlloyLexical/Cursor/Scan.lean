import AlloyLexical.Cursor
import AlloyLexical.Lexeme

/-!
# Scanning by bytes

How a cursor finds the next token of its text: it skips what separates tokens,
looks at the next byte to see what sort of token there is, and goes over the bytes
or characters of this sort.

* Blanks, comments, words, numbers and symbols are gone over byte by byte
  (`Cursor.advance`);
* the characters of a string literal are gone over one by one
  (`Cursor.advanceChar`), its quotes, its backslashes and what these escape byte by
  byte;
* a word, a number and a character that begins nothing are cut out of the text.

Most loops end wherever the cursor stands, because they leave fewer bytes each time
round. Only the loop over a literal may wait for a character in vain, and is then a
crash.
-/

namespace AlloyLexical

namespace Cursor

/-- The cursor after all bytes of the given sort that come next. -/
def advanceWhile (p : Char → Bool) (c : Cursor) : Cursor :=
  match h : c.peek with
  | none => c
  | some b =>
    if p b then
      have := bytesLeft_advance_lt h
      advanceWhile p c.advance
    else c
termination_by c.bytesLeft

theorem bytesLeft_advanceWhile_le (p : Char → Bool) (c : Cursor) :
    (c.advanceWhile p).bytesLeft ≤ c.bytesLeft := by
  fun_induction advanceWhile p c with
  | case1 => exact Nat.le_refl _
  | case2 c b h hb hlt ih => exact Nat.le_trans ih (Nat.le_of_lt hlt)
  | case3 => exact Nat.le_refl _

theorem bytesLeft_advanceWhile_lt {p : Char → Bool} {c : Cursor} {b : Char} (h : c.peek = some b)
    (hb : p b) : (c.advanceWhile p).bytesLeft < c.bytesLeft := by
  rw [advanceWhile]
  split
  · next hnone =>
    rw [h] at hnone
    cases hnone
  · next b' hb' =>
    obtain rfl := Option.some.inj (h.symm.trans hb')
    rw [if_pos hb]
    exact Nat.lt_of_le_of_lt (bytesLeft_advanceWhile_le p c.advance) (bytesLeft_advance_lt h)

/-! ## Layout -/

/-- The cursor at the end of the line. -/
def skipLine (c : Cursor) : Cursor := c.advanceWhile (· ≠ '\n')

/-- Whether the comment around the cursor is closed, and the cursor after it or at
    the end of the text. -/
def closeBlock (c : Cursor) : Bool × Cursor :=
  match h : c.peek with
  | none => (false, c)
  | some b =>
    if b = '*' ∧ c.peekAt 1 = some '/' then (true, c.advance.advance)
    else
      have := bytesLeft_advance_lt h
      closeBlock c.advance
termination_by c.bytesLeft

theorem bytesLeft_closeBlock_le (c : Cursor) : c.closeBlock.2.bytesLeft ≤ c.bytesLeft := by
  fun_induction closeBlock c with
  | case1 => exact Nat.le_refl _
  | case2 c b h hb =>
    exact Nat.le_trans (bytesLeft_advance_le c.advance) (bytesLeft_advance_le c)
  | case3 c b h hb hlt ih => exact Nat.le_trans ih (Nat.le_of_lt hlt)

/-- The cursor after a comment that begins with two bytes. -/
def skipBlock (c : Cursor) : Except ScanError Unit × Cursor :=
  let (closed, c') := c.advance.advance.closeBlock
  (if closed then .ok () else .error ⟨.unterminatedComment, c.here⟩, c')

theorem bytesLeft_skipBlock_lt {c : Cursor} {b : Char} (h : c.peek = some b) :
    c.skipBlock.2.bytesLeft < c.bytesLeft :=
  Nat.lt_of_le_of_lt (bytesLeft_closeBlock_le c.advance.advance)
    (Nat.lt_of_le_of_lt (bytesLeft_advance_le c.advance) (bytesLeft_advance_lt h))

/-- The cursor after all blanks and comments that come next. -/
def skipTrivia (c : Cursor) : Except ScanError Unit × Cursor :=
  match h : c.peek with
  | none => (.ok (), c)
  | some b =>
    if Lexeme.isBlank b then
      have := bytesLeft_advance_lt h
      skipTrivia c.advance
    else if hline : (b = '/' ∨ b = '-') ∧ c.peekAt 1 = some b then
      have : c.skipLine.bytesLeft < c.bytesLeft :=
        bytesLeft_advanceWhile_lt h (by rcases hline.1 with rfl | rfl <;> rfl)
      skipTrivia c.skipLine
    else if b = '/' ∧ c.peekAt 1 = some '*' then
      match hblock : c.skipBlock with
      | (.error e, c') => (.error e, c')
      | (.ok (), c') =>
        have : c'.bytesLeft < c.bytesLeft := by
          have hlt := bytesLeft_skipBlock_lt h
          rwa [hblock] at hlt
        skipTrivia c'
    else (.ok (), c)
termination_by c.bytesLeft

/-! ## Literals, numbers and words -/

/-- The content of a literal whose beginning, last character first, is `seen`, and the
    cursor after the quote that closes it. If there is none, the cursor stands where the
    literal is left open. -/
def readContent (seen : List Char) (c : Cursor) : Except Crash (Option (List Char) × Cursor) :=
  match h : c.peek with
  | none => .ok (none, c)
  | some b =>
    if b = '\n' then .ok (none, c)
    else if b = '\\' then
      have := bytesLeft_advance_lt h
      match h' : c.advance.peek with
      | none => readContent seen c.advance
      | some b' =>
        have := bytesLeft_advance_lt h'
        if b' = 'n' then readContent ('\n' :: seen) c.advance.advance
        else if b' = '"' then readContent ('"' :: seen) c.advance.advance
        else if b' = '\\' then readContent ('\\' :: seen) c.advance.advance
        else
          match hchar : c.advance.advanceChar with
          | some (ch, c') =>
            have := bytesLeft_advanceChar_lt h' hchar
            readContent (ch :: '\\' :: seen) c'
          | none => readContent ('\\' :: seen) c.advance
    else if b = '"' then .ok (some seen.reverse, c.advance)
    else
      match hchar : c.advanceChar with
      | some (ch, c') =>
        have := bytesLeft_advanceChar_lt h hchar
        readContent (ch :: seen) c'
      -- There is no character to wait for.
      | none => .error .loop
termination_by c.bytesLeft

/-- The literal that is opened by the quote ahead. -/
def readString (c : Cursor) : Except Crash (Except ScanError Token × Cursor) := do
  let (content, c') ← c.advance.readContent []
  match content with
  | some content => return (.ok ⟨.str, some (.text (String.ofList content)), c.spanTo c'⟩, c')
  | none => return (.error ⟨.unterminatedString, c.here⟩, c')

/-- The number ahead. -/
def readNumber (c : Cursor) : Except Crash (Except ScanError Token × Cursor) := do
  let c' := c.advanceWhile Char.isDigit
  let digits ← c.slice c'
  let value := Nat.ofDigitChars 10 digits.toList 0
  if value < Lexeme.numberBound then
    return (.ok ⟨.number, some (.number (Int64.ofNat value)), c.spanTo c'⟩, c')
  else return (.error ⟨.numberOutOfRange digits, c.spanTo c'⟩, c')

/-- The cursor after the parts of a qualified name that come next, each with a slash in
    front of it. -/
def skipParts (c : Cursor) : Cursor :=
  match h : c.peek with
  | none => c
  | some b =>
    if b = '/' ∧ (c.peekAt 1).any Char.isAlpha then
      have : (c.advance.advanceWhile Word.isWordChar).bytesLeft < c.bytesLeft :=
        Nat.lt_of_le_of_lt (bytesLeft_advanceWhile_le _ _) (bytesLeft_advance_lt h)
      skipParts (c.advance.advanceWhile Word.isWordChar)
    else c
termination_by c.bytesLeft

/-- The word ahead, or the qualified name that it begins. -/
def readWord (c : Cursor) : Except Crash (Except ScanError Token × Cursor) := do
  let c' := c.advanceWhile Word.isWordChar
  let word ← c.slice c'
  match Lexicon.word? word.toList with
  | some kind => return (.ok ⟨kind, none, c.spanTo c'⟩, c')
  | none =>
    let c'' := c'.skipParts
    let name ← c.slice c''
    return (.ok ⟨.ident, some (.label name), c.spanTo c''⟩, c'')

/-! ## Symbols -/

/-- The character ahead, which begins nothing. -/
def strayCharacter (c : Cursor) : Except Crash Char :=
  if c.OnBoundary then .ok (c.char?.getD '\uFFFD') else .error .slice

/-- The longest symbol ahead. -/
def readSymbol (c : Cursor) : Except Crash (Except ScanError Token × Cursor) := do
  let rest ← c.restOfText
  match Lexicon.symbol? rest with
  | some (symbol, kind) =>
    let c' := c.advanceBy symbol.length
    return (.ok ⟨kind, none, c.spanTo c'⟩, c')
  | none =>
    let ch ← c.strayCharacter
    return (.error ⟨.unexpectedCharacter ch, c.here⟩, c)

/-! ## Tokens -/

/-- The token ahead of a cursor that stands before no layout. -/
def readToken (c : Cursor) : Except Crash (Except ScanError Token × Cursor) :=
  match c.peek with
  | none => .ok (.ok (Token.eof c.here), c)
  | some b =>
    if b = '"' then c.readString
    else if b.isDigit then c.readNumber
    else if b.isAlpha then c.readWord
    else c.readSymbol

/-- The next token, or the fault that is there instead. -/
def scan (c : Cursor) : Except Crash (Except ScanError Token × Cursor) :=
  match c.skipTrivia with
  | (.error e, c') => .ok (.error e, c')
  | (.ok (), c') => c'.readToken

/-- The cursor after `n` scans, whatever answers they gave. -/
def after : Nat → Cursor → Except Crash Cursor
  | 0, c => .ok c
  | n + 1, c => do
    let c' ← c.after n
    let (_, c'') ← c'.scan
    return c''

/-- The answer to the scan after `n` others. -/
def answer (n : Nat) (c : Cursor) : Except Crash (Except ScanError Token) := do
  let c' ← c.after n
  let (answer, _) ← c'.scan
  return answer

end Cursor

end AlloyLexical

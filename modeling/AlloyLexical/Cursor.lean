import AlloyLexical.Span

/-!
# Cursors

A *cursor* stands at a byte of a text in UTF-8 and goes through the text, looking
at the bytes ahead. A byte is looked at as the character of its number, which is
what it stands for where it is ASCII.

There are two ways to go on. `Cursor.advance` goes over one byte and
`Cursor.advanceChar` over one character, which may be several bytes. Both count
one column, or a new line where they go over a line feed. Only from between two
characters can the cursor go over a character or cut a piece out of the text, and
nothing keeps a cursor from standing anywhere else. A program that cuts a piece
out where there is none breaks off, and one that waits for a cursor to go on may
do so for ever (`Crash`).

Lines and columns are counted in words of 64 bits, which go round
(`Counters`).
-/

namespace AlloyLexical

/-- How a program may fail to give an answer. -/
inductive Crash where
  /-- It breaks off, as it is to cut a piece out of a text that has no such piece. -/
  | slice
  /-- It does not stop, as a loop has come round to the state it was in. -/
  | loop
deriving DecidableEq

/-- A line and a column, in words. -/
structure Counters where
  line : UInt64
  column : UInt64
deriving DecidableEq

namespace Counters

/-- The first column of the next line. -/
def nextLine (k : Counters) : Counters := ⟨k.line + 1, 1⟩

/-- The next column. -/
def nextColumn (k : Counters) : Counters := { k with column := k.column + 1 }

/-- The counters after the given character or byte. -/
def past (k : Counters) (c : Char) : Counters := if c = '\n' then k.nextLine else k.nextColumn

/-- The position that is counted. -/
def position (k : Counters) : Position := ⟨k.line.toNat, k.column.toNat⟩

end Counters

/-- A place in a text, by its byte. -/
structure Cursor where
  text : String
  pos : Nat
  counters : Counters
  file : Option String

namespace Cursor

/-- The bytes of a text. -/
def bytes (text : String) : List Char := text.toUTF8.data.toList.map Char.ofUInt8

/-- The cursor at the head of a text, behind its byte order mark if there is one.
    The text may be a part of a file that has `precedingLines` lines before it. -/
def ofText (text : String) (file : Option String) (precedingLines : UInt64) : Cursor where
  text := text
  pos := if ['\xEF', '\xBB', '\xBF'] <+: bytes text then 3 else 0
  counters := ⟨1 + precedingLines, 1⟩
  file := file

/-! ## Looking -/

/-- The byte ahead. -/
def peek (c : Cursor) : Option Char := c.text.toUTF8[c.pos]?.map Char.ofUInt8

/-- The byte that is `n` bytes behind the one ahead. -/
def peekAt (c : Cursor) (n : Nat) : Option Char := c.text.toUTF8[c.pos + n]?.map Char.ofUInt8

/-- The bytes ahead. -/
def rest (c : Cursor) : List Char := (bytes c.text).drop c.pos

/-- The character ahead, if the cursor stands before one. -/
def char? (c : Cursor) : Option Char := String.Pos.Raw.get? c.text ⟨c.pos⟩

/-- Whether the cursor stands between two characters, or at an end of the text. -/
def OnBoundary (c : Cursor) : Prop := String.Pos.Raw.IsValid c.text ⟨c.pos⟩

instance (c : Cursor) : Decidable c.OnBoundary :=
  inferInstanceAs (Decidable (String.Pos.Raw.IsValid c.text ⟨c.pos⟩))

/-- The piece of the text between two cursors. -/
def slice (c c' : Cursor) : Except Crash String :=
  if c.pos ≤ c'.pos ∧ c.OnBoundary ∧ c'.OnBoundary then
    .ok (String.Pos.Raw.extract c.text ⟨c.pos⟩ ⟨c'.pos⟩)
  else .error .slice

/-- The bytes ahead, cut out of those of the text. -/
def restOfText (c : Cursor) : Except Crash (List Char) :=
  if c.pos ≤ c.text.utf8ByteSize then .ok c.rest else .error .slice

/-- The position that is counted. -/
def position (c : Cursor) : Position := c.counters.position

/-- The span of the character ahead. -/
def here (c : Cursor) : Span := Span.point c.file c.position

/-- The span of what stands between two cursors. -/
def spanTo (c c' : Cursor) : Span := ⟨c.file, c.position, c'.position.back⟩

/-! ## Going on -/

/-- The cursor after the byte ahead, if there is one. -/
def advance (c : Cursor) : Cursor :=
  match c.peek with
  | none => c
  | some b => { c with pos := c.pos + 1, counters := c.counters.past b }

/-- The character ahead and the cursor after it, if the cursor stands before one. -/
def advanceChar (c : Cursor) : Option (Char × Cursor) :=
  c.char?.map fun ch =>
    (ch, { c with pos := c.pos + ch.utf8Size, counters := c.counters.past ch })

/-- The cursor after so many bytes. -/
def advanceBy : Nat → Cursor → Cursor
  | 0, c => c
  | n + 1, c => advanceBy n c.advance

/-! ## Bytes that are left -/

/-- The number of bytes ahead. -/
def bytesLeft (c : Cursor) : Nat := c.text.utf8ByteSize - c.pos

theorem lt_of_peek {c : Cursor} {b : Char} (h : c.peek = some b) : c.pos < c.text.utf8ByteSize := by
  obtain ⟨b, hb, -⟩ := Option.map_eq_some_iff.1 h
  exact (getElem?_eq_some_iff.1 hb).1

theorem advance_of_peek {c : Cursor} {b : Char} (h : c.peek = some b) :
    c.advance = { c with pos := c.pos + 1, counters := c.counters.past b } := by
  rw [advance, h]

theorem bytesLeft_advance_lt {c : Cursor} {b : Char} (h : c.peek = some b) :
    c.advance.bytesLeft < c.bytesLeft := by
  have hlt := lt_of_peek h
  rw [advance_of_peek h]
  exact Nat.sub_succ_lt_self _ _ hlt

theorem bytesLeft_advance_le (c : Cursor) : c.advance.bytesLeft ≤ c.bytesLeft := by
  rcases h : c.peek with _ | b
  · exact Nat.le_of_eq (by rw [advance, h])
  · exact Nat.le_of_lt (bytesLeft_advance_lt h)

theorem bytesLeft_advanceChar_lt {c c' : Cursor} {b ch : Char} (hb : c.peek = some b)
    (h : c.advanceChar = some (ch, c')) : c'.bytesLeft < c.bytesLeft := by
  have hlt := lt_of_peek hb
  obtain ⟨ch', -, heq⟩ := Option.map_eq_some_iff.1 h
  cases heq
  have hsize := ch.utf8Size_pos
  simp only [bytesLeft]
  omega

end Cursor

end AlloyLexical

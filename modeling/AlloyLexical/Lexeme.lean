import AlloyLexical.Error
import AlloyLexical.Lexeme.Comment
import AlloyLexical.Lexeme.Quoted
import AlloyLexical.Lexeme.Word
import AlloyLexical.Lexicon
import AlloyLexical.Token

/-!
# Lexemes

A text is a sequence of *lexemes*. A lexeme is a blank, a comment, the text of a
token, or a piece that makes no token and is at fault. `Lexeme.cut` takes the
first lexeme off a text that is not at its end:

* a comment runs from `//` or `--` to the end of the line, or from `/*` to `*/`;
* a string literal begins with a double quote, a number with a digit, a word
  with a letter;
* a word is a reserved word or else the beginning of a qualified name: a name
  may contain a reserved word after a slash, but none leads one;
* anything else is the longest symbol that fits.

Of the faults, a literal that is not closed stretches to the end of its line, a
comment that is not closed to the end of the text, a number that is too large
over its digits. A character that begins nothing stays where it is: its lexeme
is empty, as is no other (`Cut.text_ne_nil`).

Nothing is lost between lexemes: what is cut off and what is left make up the
text (`Cut.append_eq`).
-/

namespace AlloyLexical

/-- What a piece of a text is. -/
inductive Lexeme where
  | blank
  | comment
  | token (kind : TokenKind) (payload : Option Payload)
  | fault (fault : ScanFault)
deriving DecidableEq

/-- The first lexeme of a text, the text it is written in and the text after
    it. -/
structure Cut where
  lexeme : Lexeme
  text : List Char
  rest : List Char

namespace Lexeme

/-- Whether the lexeme only separates others. -/
def isLayout : Lexeme → Bool
  | blank | comment => true
  | token .. | fault _ => false

theorem ne_fault_of_isLayout {l : Lexeme} (h : l.isLayout) (f : ScanFault) : l ≠ .fault f := by
  rintro rfl
  cases h

/-- How many columns a character takes in the lexeme. Comments are measured in
    bytes, everything else in characters, because this is how a `Cursor` goes over
    them. -/
def width : Lexeme → Char → Nat
  | comment, c => c.utf8Size
  | fault .unterminatedComment, c => c.utf8Size
  | _, _ => 1

/-- Whether the character is a blank. -/
def isBlank (c : Char) : Bool := c = ' ' || c = '\t' || c = '\r' || c = '\n' || c = '\x0c'

/-- Numbers are smaller than this, the 63rd power of two. -/
def numberBound : Nat := 0x8000000000000000

/-- The lexeme of a run of digits. -/
def ofDigits (digits : List Char) : Lexeme :=
  let value := Nat.ofDigitChars 10 digits 0
  if value < numberBound then token .number (some (.number (Int64.ofNat value)))
  else fault (.numberOutOfRange (String.ofList digits))

/-- A comment to the end of the line. -/
def cutLine (cs : List Char) : Cut := ⟨comment, cs.takeWhile (· ≠ '\n'), cs.dropWhile (· ≠ '\n')⟩

/-- A comment that was opened by the two given characters. -/
def cutBlock (c d : Char) (cs : List Char) : Cut :=
  match Comment.close? cs with
  | some (text, rest) => ⟨comment, c :: d :: text, rest⟩
  | none => ⟨fault .unterminatedComment, c :: d :: cs, []⟩

/-- A literal that was opened by the given quote. -/
def cutQuoted (c : Char) (cs : List Char) : Cut :=
  let reading := Quoted.read cs
  let lexeme := match reading.content with
    | some content => token .str (some (.text (String.ofList content)))
    | none => fault .unterminatedString
  ⟨lexeme, c :: reading.text, reading.rest⟩

/-- A number at the head of a text. -/
def cutNumber (cs : List Char) : Cut :=
  let digits := cs.takeWhile Char.isDigit
  ⟨ofDigits digits, digits, cs.dropWhile Char.isDigit⟩

/-- A word at the head of a text, or the qualified name it begins. -/
def cutWord (cs : List Char) : Cut :=
  let word := cs.takeWhile Word.isWordChar
  -- A reserved word ends where it ends, also before a slash.
  match Lexicon.word? word with
  | some kind => ⟨token kind none, word, cs.dropWhile Word.isWordChar⟩
  | none =>
    let (name, rest) := Word.qualified cs
    ⟨token .ident (some (.label (String.ofList name))), name, rest⟩

/-- A symbol at the head of a text, whose first character is given. -/
def cutSymbol (c : Char) (cs : List Char) : Cut :=
  match Lexicon.symbol? (c :: cs) with
  | some (symbol, kind) => ⟨token kind none, symbol, (c :: cs).drop symbol.length⟩
  | none => ⟨fault (.unexpectedCharacter c), [], c :: cs⟩

/-- The first lexeme of a text, which is given by its first character and the
    others. -/
def cut (c : Char) (cs : List Char) : Cut :=
  if isBlank c then ⟨blank, [c], cs⟩
  -- What opens a comment would be symbols otherwise.
  else if (c = '/' ∨ c = '-') ∧ cs.head? = some c then cutLine (c :: cs)
  else if c = '/' ∧ cs.head? = some '*' then cutBlock c '*' cs.tail
  else if c = '"' then cutQuoted c cs
  else if c.isDigit then cutNumber (c :: cs)
  else if c.isAlpha then cutWord (c :: cs)
  else cutSymbol c cs

end Lexeme

/-! ## Cutting divides the text -/

namespace Cut

open Lexeme

/-- The lexeme and the rest make up the text. -/
theorem append_eq (c : Char) (cs : List Char) : (cut c cs).text ++ (cut c cs).rest = c :: cs := by
  rw [cut]
  split
  · rfl
  split
  · exact List.takeWhile_append_dropWhile
  split
  · next h =>
    obtain ⟨cs, rfl⟩ : ∃ cs', cs = '*' :: cs' := by
      cases cs <;> simp_all
    rw [cutBlock]
    split
    · next hclose => simp [Comment.append_of_close? hclose]
    · simp
  split
  · simp [cutQuoted, Quoted.read_append]
  split
  · exact List.takeWhile_append_dropWhile
  split
  · rw [cutWord]
    simp only
    split
    · exact List.takeWhile_append_dropWhile
    · exact Word.qualified_append (c :: cs)
  · rw [cutSymbol]
    split
    · next hsymbol =>
      obtain ⟨_, rest, hrest⟩ := Lexicon.append_of_symbol? hsymbol
      simp [hrest]
    · rfl

/-- Only a character that begins nothing has an empty lexeme. -/
theorem text_ne_nil {c : Char} {cs : List Char}
    (h : ∀ d, (cut c cs).lexeme ≠ .fault (.unexpectedCharacter d)) : (cut c cs).text ≠ [] := by
  revert h
  rw [cut]
  split
  · simp
  split
  · next hc =>
    have : c ≠ '\n' := by rintro rfl; simp at hc
    simp [cutLine, this]
  split
  · rw [cutBlock]
    split <;> simp
  split
  · simp [cutQuoted]
  split
  · next hc => simp [cutNumber, hc]
  split
  · next hc =>
    have hword : Word.isWordChar c := by simp [Word.isWordChar, Char.isAlphanum, hc]
    rw [cutWord]
    simp only
    split
    · simp [hword]
    · simp [Word.qualified_cons cs hword]
  · rw [cutSymbol]
    split
    · next hsymbol => simp [(Lexicon.append_of_symbol? hsymbol).1]
    · next => exact fun h => absurd rfl (h c)

/-- Cutting leaves a shorter text, unless a character begins nothing. -/
theorem length_rest_lt {c : Char} {cs : List Char}
    (h : ∀ d, (cut c cs).lexeme ≠ .fault (.unexpectedCharacter d)) :
    (cut c cs).rest.length < (c :: cs).length := by
  have hlen := congrArg List.length (append_eq c cs)
  have := List.length_pos_iff.2 (text_ne_nil h)
  rw [List.length_append] at hlen
  omega

end Cut

end AlloyLexical

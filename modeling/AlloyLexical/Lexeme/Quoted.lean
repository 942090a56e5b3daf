/-!
# Quoted texts

A string literal is written between double quotes. What stands between them is
read in *units*: a backslash together with the character after it, or any other
single character.

* The units `\n`, `\"` and `\\` mean a line feed, a quote and a backslash; every
  other unit means itself, a backslash that escapes nothing included.
* A quote that is a unit of its own closes the literal. A line feed that is one
  does not belong to the literal, which is then left open, as it is where the
  text ends first.

`Quoted.read` starts after the opening quote and divides what follows into what
belongs to the literal and the rest (`read_append`).
-/

namespace AlloyLexical

namespace Quoted

/-- The outcome of reading a literal: its content, if it is closed, the text it
    is written in, from after the opening quote, and the text after it. -/
structure Reading where
  content : Option (List Char)
  text : List Char
  rest : List Char

/-- The reading with one more unit in front. -/
def Reading.prepend (meaning unit : List Char) (r : Reading) : Reading where
  content := r.content.map (meaning ++ ·)
  text := unit ++ r.text
  rest := r.rest

/-- The meaning of a character after a backslash. -/
def escaped (c : Char) : List Char :=
  if c = 'n' then ['\n'] else if c = '"' ∨ c = '\\' then [c] else ['\\', c]

/-- The literal at the head of a text that follows an opening quote. -/
def read : List Char → Reading
  | [] => ⟨none, [], []⟩
  | ['\\'] => ⟨none, ['\\'], []⟩
  | '\\' :: c :: cs => (read cs).prepend (escaped c) ['\\', c]
  | c :: cs =>
    if c = '"' then ⟨some [], [c], cs⟩
    else if c = '\n' then ⟨none, [], c :: cs⟩
    else (read cs).prepend [c] [c]

/-- A reading divides the text. -/
theorem read_append (cs : List Char) : (read cs).text ++ (read cs).rest = cs := by
  fun_induction read cs <;> simp_all [Reading.prepend]

end Quoted

end AlloyLexical

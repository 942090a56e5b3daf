/-!
# Words

A word consists of letters, digits, underscores and quotes of both sorts, and
begins with a letter; letters and digits are those of ASCII. A *qualified* name
is a sequence of words with slashes between them. As a slash belongs to it only
where a letter follows, a qualified name ends before the slash that does not
lead on.
-/

namespace AlloyLexical

namespace Word

/-- Whether a word may contain the character. -/
def isWordChar (c : Char) : Bool := c.isAlphanum || c = '_' || c = '\'' || c = '"'

/-- Whether a text goes on with a letter. -/
def startsWithLetter : List Char → Bool
  | c :: _ => c.isAlpha
  | [] => false

/-- The part of a text that continues a qualified name, and the part after it. -/
def qualified : List Char → List Char × List Char
  | c :: cs =>
    if isWordChar c || (c = '/' && startsWithLetter cs) then
      let (text, rest) := qualified cs
      (c :: text, rest)
    else ([], c :: cs)
  | [] => ([], [])

/-- Reading a qualified name divides the text. -/
theorem qualified_append (cs : List Char) : (qualified cs).1 ++ (qualified cs).2 = cs := by
  fun_induction qualified cs <;> simp_all

/-- A qualified name begins with every word character there is. -/
theorem qualified_cons {c : Char} (cs : List Char) (h : isWordChar c) :
    qualified (c :: cs) = (c :: (qualified cs).1, (qualified cs).2) := by
  simp [qualified, h]

end Word

end AlloyLexical

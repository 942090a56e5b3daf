import AlloyLexical.Scanner
import AlloyLexical.Source

/-!
# Texts as sources

A scanner is a source of the tokens of its text. Scanning a text is collecting
them: `tokenize` gives the tokens of a text, or the first fault there is.
-/

namespace AlloyLexical

namespace Scanner

/-- Scanners as a source. -/
def source : Source ScanError Scanner where
  read := scan
  left s := s.text.length
  progress _ := length_lt_of_scan

/-- There is an end to every text. -/
theorem finishes (s : Scanner) : Source.Finishes source.read s :=
  Source.finishes_of_lt (fun s => s.text.length) length_lt_of_scan s

end Scanner

/-- The tokens of a text, without the end token. -/
def tokenize (text : String) : Except ScanError (List Token) :=
  Scanner.source.collect (Scanner.ofText text none 0)

end AlloyLexical

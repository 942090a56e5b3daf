import AlloyLexical.Source.Text
import AlloyLexical.Source.TokenList
import AlloyLexical.Stack

/-!
# The filter

The filter stands between the scanner and the grammar. It is a stack of all four
layers, from the bottom up: declarations, commands, operators, signs. It is put
on a list of tokens by `filterTokens`, and on a text by `filterText` or, if the
text comes from somewhere, by `Filter.ofText`.

Where a text comes from has no part in what its tokens are, only in the
positions that are told of them.
-/

namespace AlloyLexical

/-- Where a text comes from: the module it is written for, which nothing depends
    on, the file it stands in, and the number of lines before it there. -/
structure Origin where
  moduleName : Option String
  file : Option String
  precedingLines : Nat
deriving DecidableEq

namespace Origin

/-- The origin of a text that stands for itself. -/
def unknown : Origin := ⟨none, none, 0⟩

end Origin

namespace Filter

/-- The layers of the filter, from the top down. -/
abbrev layers : List Layer := [.signs, .operators, .commands, .declarations]

end Filter

/-- A filter on a text, at some point of its work. -/
structure Filter where
  origin : Origin
  stack : Stack Scanner Filter.layers

namespace Filter

/-- The filter on a source. -/
def source {σ : Type} (S : Source Error σ) : Source Error (Stack σ layers) :=
  Stack.source S layers

/-- A filter on a whole text. -/
def ofText (text : String) (origin : Origin) : Filter where
  origin := origin
  stack := Stack.fresh (Scanner.ofText text origin.file origin.precedingLines) layers

/-- The tokens of the grammar that are still to come, without the end token. -/
def collect (f : Filter) : Except Error (List Token) :=
  (source (Scanner.source.mapError Error.scan)).collect f.stack

end Filter

/-- The tokens of the grammar in a text. -/
def filterText (text : String) : Except Error (List Token) :=
  (Filter.ofText text Origin.unknown).collect

/-- The tokens of the grammar in a list of scanned tokens. -/
def filterTokens (tokens : List Token) : Except Error (List Token) :=
  (Filter.source (TokenList.source Error)).collect
    (Stack.fresh (TokenList.ofList tokens) Filter.layers)

end AlloyLexical

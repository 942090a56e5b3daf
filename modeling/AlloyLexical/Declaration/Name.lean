import AlloyLexical.Error
import AlloyLexical.Token

/-!
# Declared names

A name is declared under a label, which may be any text that is not empty and
contains none of the reserved characters. These are `/`, which qualifies a name
that is declared elsewhere, and `@`, which escapes a name where it is used.
-/

namespace AlloyLexical

/-- A label, and where it was written. -/
structure Name where
  label : String
  span : Span
deriving DecidableEq

namespace Name

/-- The name an identifier stands for. -/
def ofToken? (t : Token) : Option Name := t.name?.map (⟨·, t.span⟩)

/-- The characters no name may contain, in the order they are looked for. -/
def reserved : List Char := ['/', '@']

/-- Why a name may not be declared. -/
def fault? (n : Name) : Option DeclarationFault :=
  if n.label = "" then some .emptyName
  else (reserved.find? (n.label.toList.contains ·)).map .reservedCharacter

/-- The error of declaring the name, at the place it was written. -/
def error? (n : Name) : Option DeclarationError := n.fault?.map (⟨·, some n.span⟩)

end Name

end AlloyLexical

import AlloyLexical.Span

/-!
# Errors

What can go wrong is told apart by where it goes wrong: a text has no tokens at
some place (`ScanError`), a source of tokens breaks down (`FatalError`), or a
list of names makes no declaration (`DeclarationError`). Each of them knows its
place, as far as there is one, and puts itself into words in its `message`.
-/

namespace AlloyLexical

/-- Why a text cannot be cut into tokens. -/
inductive ScanFault where
  | unterminatedString
  | unterminatedComment
  | numberOutOfRange (digits : String)
  | unexpectedCharacter (c : Char)
deriving DecidableEq

namespace ScanFault

/-- The fault in words. -/
def message : ScanFault → String
  | unterminatedString => "unterminated string literal"
  | unterminatedComment => "unterminated block comment"
  | numberOutOfRange digits => "number out of range: " ++ digits
  | unexpectedCharacter c => "unexpected character: " ++ String.singleton c

end ScanFault

/-- A place where a text has no tokens. -/
structure ScanError where
  fault : ScanFault
  span : Span
deriving DecidableEq

namespace ScanError

/-- The error in words: the fault, then its place. -/
def message (e : ScanError) : String := e.fault.message ++ " at " ++ e.span.text

end ScanError

/-- Why names make no declaration. -/
inductive DeclarationFault where
  | noNames
  | emptyName
  | reservedCharacter (c : Char)
deriving DecidableEq

namespace DeclarationFault

/-- The fault in words. -/
def message : DeclarationFault → String
  | noNames => "the list of declarations cannot be empty"
  | emptyName => "variable name cannot be empty"
  | reservedCharacter c => "variable name cannot contain '" ++ String.singleton c ++ "'"

end DeclarationFault

/-- A list of names that makes no declaration. -/
structure DeclarationError where
  fault : DeclarationFault
  span : Option Span
deriving DecidableEq

namespace DeclarationError

/-- The place of the error, with the file in front where it is known. -/
def place : Option Span → String
  | none => ""
  | some span =>
    match span.file with
    | some file => " in " ++ file ++ " at " ++ span.text
    | none => " at " ++ span.text

/-- The error in words: its place, then the fault. -/
def message (e : DeclarationError) : String :=
  "syntax error" ++ place e.span ++ ": " ++ e.fault.message

end DeclarationError

/-- The breakdown of a source of tokens. -/
structure FatalError where
  reason : String
  span : Option Span
deriving DecidableEq

namespace FatalError

/-- The error in words. -/
def message (e : FatalError) : String := "fatal error: " ++ e.reason

end FatalError

/-- Everything that can go wrong between a text and its declarations. -/
inductive Error where
  | scan (e : ScanError)
  | fatal (e : FatalError)
  | declaration (e : DeclarationError)
deriving DecidableEq

namespace Error

/-- The error in words. -/
def message : Error → String
  | scan e => e.message
  | fatal e => e.message
  | declaration e => e.message

/-- The place of the error, as far as it has one. -/
def span? : Error → Option Span
  | scan e => some e.span
  | fatal e => e.span
  | declaration e => e.span

/-- The breakdown of a source that an error of any sort amounts to. -/
def breakdown (e : Error) : FatalError := ⟨"IO error: " ++ e.message, e.span?⟩

/-- The error as a breakdown; a breakdown is left as it is. -/
def toFatal : Error → Error
  | fatal e => fatal e
  | e => fatal e.breakdown

end Error

end AlloyLexical

/-!
# Token kinds

The kinds of tokens a grammar of Alloy is written in. Most are single words or
symbols of a text. Others stand for several of them, or for one of them in a
certain place:

* a *declaring* quantifier (`TokenKind.declares`) is one that opens a
  declaration, as `some` does in `some x: A | x in B` but not in `some B`;
* a *negated* relation (`TokenKind.notRelation`) is a relation after `!`;
* an *arrow* has a multiplicity on either side, which is `any` where none is
  written, so that the bare arrow is `arrow any any`;
* the total order predicate and the integer functions are library members
  written with their qualifier, such as `fun/add`.
-/

namespace AlloyLexical

/-- Words that quantify a formula, or open a declaration. -/
inductive Quantifier where
  | all
  | no
  | sum
  | one
  | lone
  | some
deriving DecidableEq

namespace Quantifier

/-- How a quantifier is written. -/
def spelling : Quantifier → String
  | all => "all"
  | no => "no"
  | sum => "sum"
  | one => "one"
  | lone => "lone"
  | some => "some"

end Quantifier

/-- Comparisons that may be negated. -/
inductive Relation where
  | subset
  | equal
  | less
  | atMost
  | greater
  | atLeast
deriving DecidableEq

namespace Relation

/-- How a relation is written. -/
def spelling : Relation → String
  | subset => "in"
  | equal => "="
  | less => "<"
  | atMost => "=<"
  | greater => ">"
  | atLeast => ">="

end Relation

/-- How many atoms one side of an arrow relates to one atom of the other. -/
inductive Multiplicity where
  | one
  | lone
  | some
  | any
deriving DecidableEq

namespace Multiplicity

/-- The word beside the arrow; there is none for `any`. -/
def spelling : Multiplicity → String
  | one => "one"
  | lone => "lone"
  | some => "some"
  | any => ""

end Multiplicity

/-- Functions of the integer library. -/
inductive IntFunction where
  | add
  | sub
  | mul
  | div
  | rem
  | min
  | max
  | next
deriving DecidableEq

namespace IntFunction

/-- The name of the function within its library. -/
def label : IntFunction → String
  | add => "add"
  | sub => "sub"
  | mul => "mul"
  | div => "div"
  | rem => "rem"
  | min => "min"
  | max => "max"
  | next => "next"

/-- All functions of the library. -/
def every : List IntFunction := [add, sub, mul, div, rem, min, max, next]

/-- The function of a given name. -/
def ofLabel? (name : String) : Option IntFunction := every.find? (·.label = name)

end IntFunction

/-- Punctuation, operators and logical connectives. A connective may also be
    written as a word; its spelling is the symbol. -/
inductive Symbol where
  | leftParen
  | rightParen
  | leftBracket
  | rightBracket
  | leftBrace
  | rightBrace
  | comma
  | colon
  | dot
  | slash
  | bar
  | atSign
  | hash
  | tilde
  | caret
  | star
  | plus
  | minus
  | ampersand
  | domainRestriction
  | rangeRestriction
  | override
  | shiftLeft
  | shiftRight
  | shiftRightZero
  | and
  | or
  | not
  | implies
  | iff
deriving DecidableEq

namespace Symbol

/-- How a symbol is written. -/
def spelling : Symbol → String
  | leftParen => "("
  | rightParen => ")"
  | leftBracket => "["
  | rightBracket => "]"
  | leftBrace => "\x7b"
  | rightBrace => "\x7d"
  | comma => ","
  | colon => ":"
  | dot => "."
  | slash => "/"
  | bar => "|"
  | atSign => "@"
  | hash => "#"
  | tilde => "~"
  | caret => "^"
  | star => "*"
  | plus => "+"
  | minus => "-"
  | ampersand => "&"
  | domainRestriction => "<:"
  | rangeRestriction => ":>"
  | override => "++"
  | shiftLeft => "<<"
  | shiftRight => ">>"
  | shiftRightZero => ">>>"
  | and => "&&"
  | or => "||"
  | not => "!"
  | implies => "=>"
  | iff => "<=>"

end Symbol

/-- Reserved words other than quantifiers, connectives and the relation `in`. -/
inductive Keyword where
  | abstract
  | as
  | assert
  | but
  | check
  | disj
  | elseKw
  | exactly
  | exh
  | expect
  | extendsKw
  | fact
  | forKw
  | funKw
  | iden
  | int
  | letKw
  | module
  | none
  | openKw
  | part
  | pred
  | privateKw
  | run
  | seq
  | set
  | sig
  | sigInt
  | this
  | univ
deriving DecidableEq

namespace Keyword

/-- How a keyword is written. -/
def spelling : Keyword → String
  | abstract => "abstract"
  | as => "as"
  | assert => "assert"
  | but => "but"
  | check => "check"
  | disj => "disj"
  | elseKw => "else"
  | exactly => "exactly"
  | exh => "exh"
  | expect => "expect"
  | extendsKw => "extends"
  | fact => "fact"
  | forKw => "for"
  | funKw => "fun"
  | iden => "iden"
  | int => "int"
  | letKw => "let"
  | module => "module"
  | none => "none"
  | openKw => "open"
  | part => "part"
  | pred => "pred"
  | privateKw => "private"
  | run => "run"
  | seq => "seq"
  | set => "set"
  | sig => "sig"
  | sigInt => "Int"
  | this => "this"
  | univ => "univ"

end Keyword

/-- The kind of a token, as a grammar sees it. -/
inductive TokenKind where
  | eof
  | ident
  | number
  | str
  | symbol (s : Symbol)
  | keyword (w : Keyword)
  | quantifier (q : Quantifier)
  | declares (q : Quantifier)
  | relation (r : Relation)
  | notRelation (r : Relation)
  | arrow (left right : Multiplicity)
  | totalOrder
  | intFunction (f : IntFunction)
deriving DecidableEq

namespace TokenKind

/-! ## Single tokens under names of their own -/

@[match_pattern] abbrev colon : TokenKind := symbol .colon

@[match_pattern] abbrev comma : TokenKind := symbol .comma

@[match_pattern] abbrev dot : TokenKind := symbol .dot

@[match_pattern] abbrev slash : TokenKind := symbol .slash

@[match_pattern] abbrev minus : TokenKind := symbol .minus

@[match_pattern] abbrev not : TokenKind := symbol .not

/-- The arrow without a multiplicity on either side. -/
@[match_pattern] abbrev bareArrow : TokenKind := arrow .any .any

/-! ## Families of kinds -/

/-- The kind a quantifier takes where it opens a declaration. -/
def declaring? : TokenKind → Option TokenKind
  | quantifier q => some (declares q)
  | _ => none

theorem exists_of_declaring? {k k' : TokenKind} (h : k.declaring? = some k') :
    ∃ q, k = .quantifier q ∧ k' = .declares q := by
  cases k with
  | quantifier q => exact ⟨q, rfl, (Option.some.inj h).symm⟩
  | _ => cases h

/-- The kind a relation takes after `!`. -/
def negated? : TokenKind → Option TokenKind
  | relation r => some (notRelation r)
  | _ => none

theorem exists_of_negated? {k k' : TokenKind} (h : k.negated? = some k') :
    ∃ r, k = .relation r ∧ k' = .notRelation r := by
  cases k with
  | relation r => exact ⟨r, rfl, (Option.some.inj h).symm⟩
  | _ => cases h

/-- The multiplicity a word puts beside an arrow. The word `set` puts no bound
    there, like no word at all. -/
def multiplicity? : TokenKind → Option Multiplicity
  | quantifier .one => some .one
  | quantifier .lone => some .lone
  | quantifier .some => some .some
  | keyword .set => some .any
  | _ => none

/-- Whether the kind is that of a word that may stand beside an arrow. -/
def isMultiplicity (k : TokenKind) : Bool := k.multiplicity?.isSome

/-- The arrow with the given words beside it; what is missing, or is no
    multiplicity, puts no bound there. -/
def arrowBetween (left right : Option TokenKind) : TokenKind :=
  arrow ((left.bind multiplicity?).getD .any) ((right.bind multiplicity?).getD .any)

/-- Whether an operand may end with the kind, so that a minus sign after it
    subtracts. -/
def endsOperand : TokenKind → Bool
  | ident | number | str | totalOrder => true
  | symbol .rightParen | symbol .rightBracket | symbol .rightBrace => true
  | keyword .disj | keyword .iden | keyword .int | keyword .none => true
  | keyword .sigInt | keyword .this | keyword .univ => true
  | quantifier .sum => true
  | intFunction .min | intFunction .max | intFunction .next => true
  | _ => false

/-- How the kind is written. Kinds whose tokens are written in many ways have a
    name in angle brackets instead. -/
def spelling : TokenKind → String
  | eof => "<end of file>"
  | ident => "<identifier>"
  | number => "<number>"
  | str => "<string>"
  | symbol s => s.spelling
  | keyword w => w.spelling
  | quantifier q => q.spelling
  | declares q => q.spelling
  | relation r => r.spelling
  | notRelation r => "!" ++ r.spelling
  | arrow l r => l.spelling ++ "->" ++ r.spelling
  | totalOrder => "pred/totalOrder"
  | intFunction f => "fun/" ++ f.label

end TokenKind

end AlloyLexical

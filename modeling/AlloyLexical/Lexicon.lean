import AlloyLexical.Token.Kind

/-!
# Lexicon

The words and symbols that are tokens by themselves. Connectives have two
spellings, a word and a symbol, and so has the relation `=<`, which may be
written `<=` as well.

Where several symbols begin alike the longest one is meant. The table of symbols
is sorted by length, longest first, so that the first one found is the longest
one (`symbols_sorted`).
-/

namespace AlloyLexical

namespace Lexicon

/-- The reserved words. -/
def words : List (String × TokenKind) := [
  ("abstract", .keyword .abstract),
  ("all", .quantifier .all),
  ("and", .symbol .and),
  ("as", .keyword .as),
  ("assert", .keyword .assert),
  ("but", .keyword .but),
  ("check", .keyword .check),
  ("disj", .keyword .disj),
  ("else", .keyword .elseKw),
  ("exactly", .keyword .exactly),
  ("exh", .keyword .exh),
  ("expect", .keyword .expect),
  ("extends", .keyword .extendsKw),
  ("fact", .keyword .fact),
  ("for", .keyword .forKw),
  ("fun", .keyword .funKw),
  ("iden", .keyword .iden),
  ("iff", .symbol .iff),
  ("implies", .symbol .implies),
  ("in", .relation .subset),
  ("int", .keyword .int),
  ("Int", .keyword .sigInt),
  ("let", .keyword .letKw),
  ("lone", .quantifier .lone),
  ("module", .keyword .module),
  ("no", .quantifier .no),
  ("none", .keyword .none),
  ("not", .symbol .not),
  ("one", .quantifier .one),
  ("open", .keyword .openKw),
  ("or", .symbol .or),
  ("part", .keyword .part),
  ("pred", .keyword .pred),
  ("private", .keyword .privateKw),
  ("run", .keyword .run),
  ("seq", .keyword .seq),
  ("set", .keyword .set),
  ("sig", .keyword .sig),
  ("some", .quantifier .some),
  ("sum", .quantifier .sum),
  ("this", .keyword .this),
  ("univ", .keyword .univ)]

/-- The symbols, longest first. -/
def symbols : List (String × TokenKind) := [
  (">>>", .symbol .shiftRightZero),
  ("<=>", .symbol .iff),
  ("->", .bareArrow),
  ("=>", .symbol .implies),
  ("=<", .relation .atMost),
  ("<=", .relation .atMost),
  (">=", .relation .atLeast),
  ("<:", .symbol .domainRestriction),
  (":>", .symbol .rangeRestriction),
  ("++", .symbol .override),
  ("<<", .symbol .shiftLeft),
  (">>", .symbol .shiftRight),
  ("&&", .symbol .and),
  ("||", .symbol .or),
  ("(", .symbol .leftParen),
  (")", .symbol .rightParen),
  ("[", .symbol .leftBracket),
  ("]", .symbol .rightBracket),
  ("\x7b", .symbol .leftBrace),
  ("\x7d", .symbol .rightBrace),
  (",", .symbol .comma),
  (":", .symbol .colon),
  (".", .symbol .dot),
  ("/", .symbol .slash),
  ("|", .symbol .bar),
  ("@", .symbol .atSign),
  ("#", .symbol .hash),
  ("~", .symbol .tilde),
  ("^", .symbol .caret),
  ("*", .symbol .star),
  ("+", .symbol .plus),
  ("-", .symbol .minus),
  ("&", .symbol .ampersand),
  ("=", .relation .equal),
  ("<", .relation .less),
  (">", .relation .greater),
  ("!", .symbol .not)]

theorem symbols_sorted : symbols.Pairwise fun a b => b.1.length ≤ a.1.length := by decide

/-- The kind of a reserved word. -/
def word? (w : List Char) : Option TokenKind := words.lookup (String.ofList w)

/-- The longest symbol a text begins with, and its kind. -/
def symbol? (text : List Char) : Option (List Char × TokenKind) :=
  symbols.findSome? fun (spelling, kind) =>
    if spelling.toList.isPrefixOf text then some (spelling.toList, kind) else none

/-- A symbol found at the head of a text is not empty, and the text goes on
    after it. -/
theorem append_of_symbol? {text s : List Char} {kind : TokenKind}
    (h : symbol? text = some (s, kind)) : s ≠ [] ∧ ∃ rest, text = s ++ rest := by
  obtain ⟨⟨spelling, kind'⟩, hmem, hif⟩ := List.exists_of_findSome?_eq_some h
  have hne : ∀ e ∈ symbols, e.1.toList ≠ [] := by decide
  by_cases hpre : spelling.toList.isPrefixOf text
  · obtain ⟨rfl, rfl⟩ : spelling.toList = s ∧ kind' = kind := by simpa [hpre] using hif
    obtain ⟨rest, hrest⟩ := List.isPrefixOf_iff_prefix.1 hpre
    exact ⟨hne _ hmem, rest, hrest.symm⟩
  · simp [hpre] at hif

end Lexicon

end AlloyLexical

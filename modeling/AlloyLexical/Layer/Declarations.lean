import AlloyLexical.Layer.Exchange
import AlloyLexical.Layer.Outlook

/-!
# Declarations

The words `all`, `no`, `sum`, `one`, `lone` and `some` quantify an expression,
as in `some r`, or open a declaration, as in `some x, y: A | x in y`. What they
do is seen from what follows them: a declaration has a *head*,

* possibly the word `private`,
* possibly one of the words `disj`, `part` and `exh`,
* names, separated by commas,
* a colon.

A quantifier before such a head is given its declaring kind. One that follows a
colon is not: it belongs to the type of the declaration around it, as in
`f: lone x`.
-/

namespace AlloyLexical

namespace Declarations

/-- The tokens after the word `private`, if it is there. -/
def dropPrivate : List Token → List Token
  | [] => []
  | t :: ts => if t.kind = .keyword .privateKw then ts else t :: ts

/-- Whether the kind is that of `disj`, `part` or `exh`. -/
def isDisposition : TokenKind → Bool
  | .keyword .disj | .keyword .part | .keyword .exh => true
  | _ => false

/-- The tokens after one of the words `disj`, `part` and `exh`, if it is
    there. -/
def dropDisposition : List Token → List Token
  | [] => []
  | t :: ts => if isDisposition t.kind then ts else t :: ts

/-- Whether the tokens begin with names, separated by commas, and a colon. -/
def startsWithNames : List Token → Bool
  | t :: u :: ts =>
    t.kind = .ident && (u.kind = .colon || (u.kind = .comma && startsWithNames ts))
  | _ => false

/-- Whether the tokens begin with the head of a declaration. -/
def startsWithHead (ts : List Token) : Bool := startsWithNames (dropDisposition (dropPrivate ts))

/-- A token in hand, as a declaring quantifier if it opens a declaration, and
    what follows it. The last token before it had the kind
    `last`. -/
def deliver (last : Option TokenKind) (t : Token) (ts : List Token) : Token × List Token :=
  match t.kind.declaring? with
  | some kind =>
    -- After a colon, the quantifier belongs to a type.
    if last ≠ some .colon ∧ startsWithHead ts then (t.withKind kind, ts) else (t, ts)
  | none => (t, ts)

/-- A delivery leaves everything behind the token in hand. -/
theorem deliver_snd (last : Option TokenKind) (t : Token) (ts : List Token) :
    (deliver last t ts).2 = ts := by
  rw [deliver]
  split
  · split <;> rfl
  · rfl

theorem exchange_deliver (last : Option TokenKind) (t : Token) (ts : List Token) :
    Exchange t ts (deliver last t ts) := by
  rw [deliver]
  split
  · next kind hkind =>
    split
    · obtain ⟨q, -, rfl⟩ := TokenKind.exists_of_declaring? hkind
      exact .one (fun _ => by simp [Token.withKind]) ts
    · exact .alone t ts
  · exact .alone t ts

/-- A quantifier waits for the head of a declaration. -/
def outlook (last : Option TokenKind) (t : Token) : Option Outlook :=
  if last ≠ some .colon ∧ t.kind.declaring?.isSome then some .head else none

end Declarations

end AlloyLexical

import AlloyLexical.Layer.Exchange
import AlloyLexical.Layer.Outlook

/-!
# Signs

A minus sign after the end of an operand subtracts. Anywhere else, and at the
beginning, it is a sign: with the number that follows it it makes a negative
number. The sign of a number is changed in 64 bits, where the least number is
its own opposite.
-/

namespace AlloyLexical

namespace Signs

/-- Whether a minus sign after a token of the given kind, or at the beginning,
    may be the sign of a number. -/
def admitsSign (last : Option TokenKind) : Bool := !last.any TokenKind.endsOperand

/-- The value of a number: both the kind and the payload have to fit. -/
def value? (t : Token) : Option Int64 := if t.kind = .number then t.number? else none

/-- A minus sign in hand, with a number that follows it. -/
def sign (t : Token) : List Token → Token × List Token
  | [] => (t, [])
  | u :: us =>
    match value? u with
    | some n => (⟨.number, some (.number (-n)), t.span.merge u.span⟩, us)
    | none => (t, u :: us)

/-- A token in hand and what follows it, with a signed number merged. The last
    token before it had the kind `last`. -/
def deliver (last : Option TokenKind) (t : Token) (ts : List Token) : Token × List Token :=
  if t.kind = .minus ∧ admitsSign last then sign t ts else (t, ts)

theorem exchange_deliver (last : Option TokenKind) (t : Token) (ts : List Token) :
    Exchange t ts (deliver last t ts) := by
  rw [deliver]
  split
  · rw [sign.eq_def]
    split
    · exact .alone t []
    · next u us =>
      split
      · next n hu =>
        have hne : u.kind ≠ .eof := by
          rintro h
          simp [value?, h] at hu
        exact .merging t (by simp) (List.forall_mem_singleton.2 hne) us
      · exact .alone t _
  · exact .alone t ts

/-- A minus sign that may be a sign waits for the token after it. -/
def outlook (last : Option TokenKind) (t : Token) : Option Outlook :=
  if t.kind = .minus ∧ admitsSign last then some .one else none

end Signs

end AlloyLexical

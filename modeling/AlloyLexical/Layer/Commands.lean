import AlloyLexical.Layer.Exchange
import AlloyLexical.Layer.Outlook

/-!
# Commands

A command may be given a name in front, as in `safe: check { … }`. A grammar
would rather meet the command first, so that the name, the colon and the
command are turned around: the command, carrying the label of the name, a dot
in place of the colon, and the name. As the name comes last it can be the name
of another command, and `a: run: check` becomes `run . check . a`.

Nothing is looked at beyond a window of three tokens, and this window is kept
full whether there is a name in it or not.
-/

namespace AlloyLexical

namespace Commands

/-- Whether the kind is that of a command. -/
def isCommand : TokenKind → Bool
  | .keyword .run | .keyword .check => true
  | _ => false

/-- A token in hand and what follows it, with a named command turned around. -/
def deliver (t : Token) (ts : List Token) : Token × List Token :=
  match ts with
  | u :: v :: us =>
    if t.kind = .ident ∧ u.kind = .colon ∧ isCommand v.kind then
      (v.withPayload t.payload, u.withKind .dot :: t :: us)
    else (t, ts)
  | _ => (t, ts)

theorem ne_eof_of_isCommand {kind : TokenKind} (h : isCommand kind) : kind ≠ .eof := by
  rintro rfl
  cases h

theorem exchange_deliver (t : Token) (ts : List Token) : Exchange t ts (deliver t ts) := by
  rw [deliver.eq_def]
  split
  · next u v us =>
    split
    · next h =>
      -- The colon and the command are taken, a dot and the name put in their place.
      obtain ⟨ht, hu, hv⟩ := h
      exact ⟨fun _ => ne_eof_of_isCommand hv, [u, v], [u.withKind .dot, t], us, rfl, rfl,
        Nat.le_refl _, by simp [hu, ne_eof_of_isCommand hv], by simp [Token.withKind, ht]⟩
    · exact .alone t _
  · exact .alone t ts

/-- Every token waits for the two after it. -/
def outlook (t : Token) : Option Outlook := if t.kind = .eof then none else some .two

end Commands

end AlloyLexical

import AlloyLexical.Source

/-!
# Interrupted sources

A source that hands out some tokens, whichever they are, and then fails for
good.
-/

namespace AlloyLexical

/-- The tokens to hand out before the failure. -/
structure Interrupted (ε : Type) where
  tokens : List Token
  failure : ε

namespace Interrupted

/-- Interrupted lists of tokens as a source. -/
def source (ε : Type) : Source ε (Interrupted ε) where
  read l :=
    match l.tokens with
    | [] => (.error l.failure, l)
    | t :: tokens => (.ok t, { l with tokens := tokens })
  left l := l.tokens.length
  progress {l l' t} _ h _ := by
    obtain ⟨_ | ⟨u, tokens⟩, failure⟩ := l
    · cases h
    · cases h
      exact Nat.lt_succ_self _

end Interrupted

end AlloyLexical

import AlloyLexical.Source

/-!
# Lists of tokens as sources

A list of tokens is a source that never fails. It ends with the first end token
of the list, or after the list if there is none; the end token made up then
stands one column to the right of the last token. From there on the source hands
out end tokens of the same span.
-/

namespace AlloyLexical

/-- The tokens to hand out before those that end the source, and the span of
    the latter. -/
structure TokenList where
  tokens : List Token
  ending : Span

namespace TokenList

/-- The span just after a token. -/
def spanAfter (t : Token) : Span :=
  Span.point t.span.file ⟨t.span.stop.line, t.span.stop.column + 1⟩

/-- The source of a list. -/
def ofList (tokens : List Token) : TokenList :=
  ⟨tokens, (tokens.getLast?.map spanAfter).getD (Span.point none ⟨1, 1⟩)⟩

/-- The next token. -/
def next (l : TokenList) : Token × TokenList :=
  match l.tokens with
  | [] => (Token.eof l.ending, l)
  | t :: tokens => if t.kind = .eof then (t, ⟨[], t.span⟩) else (t, ⟨tokens, l.ending⟩)

/-- Lists as a source with any sort of error. -/
def source (ε : Type) : Source ε TokenList where
  read l := (.ok l.next.1, l.next.2)
  left l := l.tokens.length
  progress {l l' t} _ h ht := by
    obtain ⟨_ | ⟨u, tokens⟩, ending⟩ := l
    · cases h
      exact absurd rfl ht
    · by_cases hu : u.kind = .eof
      · simp only [next, hu, if_true] at h
        cases h
        exact absurd hu ht
      · simp only [next, hu, if_false] at h
        cases h
        exact Nat.lt_succ_self _

end TokenList

end AlloyLexical

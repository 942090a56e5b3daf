import AlloyLexical.Token

/-!
# Exchanges of tokens

A layer with a token in hand delivers a token and leaves others behind. Whatever
it makes of them, this is an *exchange*: tokens are taken off those behind the
one in hand, and no more are put in their place. End tokens have no part in it.

So the tokens to come before the next end do not become more
(`Exchange.countToEnd_le`, `Exchange.length_le`), and there is no end token where
there was none (`Exchange.forall_ne_eof`).
-/

namespace AlloyLexical

/-- The token delivered and the tokens left are exchanged for the token `t` in
    hand and the tokens `ts` behind it. -/
structure Exchange (t : Token) (ts : List Token) (d : Token × List Token) : Prop where
  ne_eof : t.kind ≠ .eof → d.1.kind ≠ .eof
  exists_taken : ∃ taken given rest, ts = taken ++ rest ∧ d.2 = given ++ rest ∧
    given.length ≤ taken.length ∧ (∀ u ∈ taken, u.kind ≠ .eof) ∧ ∀ u ∈ given, u.kind ≠ .eof

namespace Exchange

/-- The token in hand is delivered, possibly changed. -/
theorem one {t u : Token} (h : t.kind ≠ .eof → u.kind ≠ .eof) (ts : List Token) :
    Exchange t ts (u, ts) :=
  ⟨h, [], [], ts, rfl, rfl, Nat.le_refl _, List.forall_mem_nil _, List.forall_mem_nil _⟩

/-- The token in hand is delivered as it is. -/
theorem alone (t : Token) (ts : List Token) : Exchange t ts (t, ts) := one id ts

/-- A token is delivered for the one in hand and some behind it. -/
theorem merging (t : Token) {u : Token} (hu : u.kind ≠ .eof) {taken : List Token}
    (htaken : ∀ v ∈ taken, v.kind ≠ .eof) (rest : List Token) :
    Exchange t (taken ++ rest) (u, rest) :=
  ⟨fun _ => hu, taken, [], rest, rfl, rfl, Nat.zero_le _, htaken, List.forall_mem_nil _⟩

variable {t : Token} {ts : List Token} {d : Token × List Token}

/-- One more token may be taken. -/
theorem cons {u : Token} (hu : u.kind ≠ .eof) (h : Exchange t ts d) : Exchange t (u :: ts) d := by
  obtain ⟨hne, taken, given, rest, rfl, hd, hle, htaken, hgiven⟩ := h
  exact ⟨hne, u :: taken, given, rest, rfl, hd, Nat.le_succ_of_le hle,
    List.forall_mem_cons.2 ⟨hu, htaken⟩, hgiven⟩

theorem length_le (h : Exchange t ts d) : d.2.length ≤ ts.length := by
  obtain ⟨-, taken, given, rest, rfl, hd, hle, -, -⟩ := h
  rw [hd, List.length_append, List.length_append]
  exact Nat.add_le_add_right hle _

theorem countToEnd_le (h : Exchange t ts d) (n : Nat) :
    Token.countToEnd d.2 n ≤ Token.countToEnd ts n := by
  obtain ⟨-, taken, given, rest, rfl, hd, hle, htaken, hgiven⟩ := h
  rw [hd, Token.countToEnd_append, Token.countToEnd_append, Token.countToEnd_of_ne_eof htaken,
    Token.countToEnd_of_ne_eof hgiven]
  exact Nat.add_le_add_right hle _

theorem forall_ne_eof (h : Exchange t ts d) (hts : ∀ u ∈ t :: ts, u.kind ≠ .eof) :
    ∀ u ∈ d.1 :: d.2, u.kind ≠ .eof := by
  obtain ⟨hne, taken, given, rest, rfl, hd, -, -, hgiven⟩ := h
  obtain ⟨ht, hts⟩ := List.forall_mem_cons.1 hts
  rw [hd, List.forall_mem_cons, List.forall_mem_append]
  exact ⟨hne ht, hgiven, (List.forall_mem_append.1 hts).2⟩

end Exchange

end AlloyLexical

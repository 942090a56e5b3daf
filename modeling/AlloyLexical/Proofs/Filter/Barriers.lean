import AlloyLexical.Proofs.Filter.Staging

/-!
# Barriers

A grammar that resumes behind an error, or a tool that filters the paragraphs of
a model one by one, would cut a list of tokens in two. It may do so at every
*barrier*, a brace or a connective for example: the filter makes of the whole
what it makes of both sides, with the barrier between them
(`filterTokens_append_barrier`).

To a layer, a barrier ahead is like the end of its source: what is behind it has
no part in a delivery in front of it (`Layer.deliver_append_barrier`). And a
barrier behind is like the beginning: once it has been handed out the layer is
as good as fresh (`Layer.deliver_after_barrier`). In between, the barrier itself
is handed on as it is (`Layer.deliver_of_isBarrier`). So a layer rewrites both
sides apart (`Layer.rewrite_append_barrier`), and leaves a barrier between them
for the layer above.
-/

namespace AlloyLexical

namespace Layer

/-- A barrier is delivered as it is. -/
theorem deliver_of_isBarrier (l : Layer) (last : Option TokenKind) {b : Token} (ts : List Token)
    (hb : b.kind.isBarrier) : l.deliver last b ts = (b, ts) := by
  have hne {k : TokenKind} (hk : k.isBarrier = false) : b.kind ≠ k :=
    TokenKind.ne_of_isBarrier hb hk
  cases l with
  | declarations =>
    simp [deliver, Declarations.deliver, TokenKind.declaring?_of_isBarrier hb]
  | commands =>
    exact Commands.deliver_of_not_named fun h => hne rfl h.1
  | operators =>
    rw [deliver, Operators.deliver.eq_def]
    split
    · next h => exact absurd h (hne rfl)
    · next h => exact absurd h (hne rfl)
    · next h => exact absurd h (hne rfl)
    · next h => exact absurd h (hne rfl)
    · exact if_neg (Bool.eq_false_iff.1 (TokenKind.not_isMultiplicity_of_isBarrier hb))
  | signs =>
    exact if_neg fun h => hne rfl h.1

/-- Behind a barrier, a layer delivers as at the beginning. -/
theorem deliver_after_barrier (l : Layer) {k : TokenKind} (t : Token) (ts : List Token)
    (hk : k.isBarrier) : l.deliver (some k) t ts = l.deliver none t ts := by
  cases l with
  | declarations =>
    have hcolon : (some k ≠ some .colon) = ((none : Option TokenKind) ≠ some .colon) := by
      simp [TokenKind.ne_of_isBarrier hk (show TokenKind.isBarrier .colon = false from rfl)]
    simp only [deliver, Declarations.deliver, hcolon]
  | commands => rfl
  | operators => rfl
  | signs =>
    have hsign : Signs.admitsSign (some k) = Signs.admitsSign none := by
      simp [Signs.admitsSign, TokenKind.not_endsOperand_of_isBarrier hk]
    simp only [deliver, Signs.deliver, hsign]

theorem rewriteFrom_after_barrier (l : Layer) {k : TokenKind} (ts : List Token)
    (hk : k.isBarrier) : l.rewriteFrom (some k) ts = l.rewrite ts := by
  cases ts with
  | nil => rw [rewrite, rewriteFrom_nil, rewriteFrom_nil]
  | cons t ts => rw [rewrite, rewriteFrom_cons, rewriteFrom_cons, l.deliver_after_barrier t ts hk]

/-- Whatever a layer has handed out before, it rewrites what is in front of a
    barrier and what is behind it apart. -/
theorem rewriteFrom_append_barrier (l : Layer) (last : Option TokenKind) (xs ys : List Token)
    {b : Token} (hb : b.kind.isBarrier) :
    l.rewriteFrom last (xs ++ b :: ys) = l.rewriteFrom last xs ++ b :: l.rewrite ys := by
  fun_induction l.rewriteFrom last xs with
  | case1 last =>
    rw [List.nil_append, rewriteFrom_cons, l.deliver_of_isBarrier last ys hb,
      l.rewriteFrom_after_barrier ys hb, List.nil_append]
  | case2 last t ts _ ih =>
    rw [List.cons_append, rewriteFrom_cons, l.deliver_append_barrier last t ts ys hb, extend, ih,
      List.cons_append]

theorem rewrite_append_barrier (l : Layer) (xs ys : List Token) {b : Token}
    (hb : b.kind.isBarrier) : l.rewrite (xs ++ b :: ys) = l.rewrite xs ++ b :: l.rewrite ys :=
  l.rewriteFrom_append_barrier none xs ys hb

end Layer

/-- Layers one after the other rewrite both sides of a barrier apart. -/
theorem Stack.rewrite_append_barrier (ls : List Layer) (xs ys : List Token) {b : Token}
    (hb : b.kind.isBarrier) : rewrite ls (xs ++ b :: ys) = rewrite ls xs ++ b :: rewrite ls ys := by
  induction ls with
  | nil => rfl
  | cons l ls ih =>
    rw [rewrite, List.foldr_cons, ← rewrite, ih, l.rewrite_append_barrier _ _ hb]
    rfl

/-- The filter makes of tokens with a barrier among them what it makes of those in
    front of the barrier and of those behind it, and leaves the barrier where it
    is. -/
theorem filterTokens_append_barrier {xs ys : List Token} {b : Token} (hb : b.kind.isBarrier)
    (hne : b.kind ≠ .eof) (hxs : ∀ t ∈ xs, t.kind ≠ .eof) (hys : ∀ t ∈ ys, t.kind ≠ .eof) :
    ∃ us vs, filterTokens xs = .ok us ∧ filterTokens ys = .ok vs ∧
      filterTokens (xs ++ [b] ++ ys) = .ok (us ++ [b] ++ vs) := by
  have hall : ∀ t ∈ xs ++ [b] ++ ys, t.kind ≠ .eof :=
    List.forall_mem_append.2 ⟨List.forall_mem_append.2 ⟨hxs, List.forall_mem_singleton.2 hne⟩, hys⟩
  refine ⟨_, _, filterTokens_eq hxs, filterTokens_eq hys, ?_⟩
  rw [filterTokens_eq hall, ← List.append_cons, Stack.rewrite_append_barrier _ _ _ hb,
    ← List.append_cons]

/-- A brace in the middle of a declaration and of a signed number: neither is
    recognised across it. -/
theorem filterTokens_append_barrier_brace :
    let t (kind : TokenKind) (column : Nat) : Token := ⟨kind, none, .point none ⟨1, column⟩⟩
    let xs := [t .not 1, t (.quantifier .some) 2, t .ident 3, t .comma 4]
    let ys := [t .minus 6, ⟨.number, some (.number 7), .point none ⟨1, 7⟩⟩]
    let b := t (.symbol .leftBrace) 5
    b.kind.isBarrier ∧ b.kind ≠ .eof ∧ (∀ t ∈ xs, t.kind ≠ .eof) ∧ (∀ t ∈ ys, t.kind ≠ .eof) ∧
      filterTokens (xs ++ [b] ++ ys) =
        .ok (xs ++ [b] ++ [⟨.number, some (.number (-7)), ⟨none, ⟨1, 6⟩, ⟨1, 7⟩⟩⟩]) := by
  intro t xs ys b
  have hxs : ∀ t ∈ xs, t.kind ≠ .eof := by decide +revert
  have hys : ∀ t ∈ ys, t.kind ≠ .eof := by decide +revert
  have hleft : filterTokens xs = .ok xs := by decide +kernel
  have hright : filterTokens ys = .ok [⟨.number, some (.number (-7)), ⟨none, ⟨1, 6⟩, ⟨1, 7⟩⟩⟩] := by
    decide +kernel
  obtain ⟨us, vs, hus, hvs, hall⟩ := filterTokens_append_barrier (b := b) rfl nofun hxs hys
  obtain rfl := Except.ok.inj (hleft.symm.trans hus)
  obtain rfl := Except.ok.inj (hright.symm.trans hvs)
  exact ⟨rfl, nofun, hxs, hys, hall⟩

end AlloyLexical

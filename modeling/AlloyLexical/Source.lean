import AlloyLexical.Token

/-!
# Sources of tokens

A *source* hands out tokens one by one: reading it in some state gives a token,
or an error, and the state to go on from. A source is never used up. After its
tokens it hands out an end token, and usually nothing else from then on; what
it does after an error is of no use.

Nothing is asked of a source but that it can be told how many tokens are *left*
where it comes to an end at all (`Source.Finishes`): `progress` says that each
token leaves fewer. So a source may go on for ever, from the beginning or behind
an end token. Whoever reads on until something happens counts on the number to
become less, and gives up a source where it does not. Wherever a source finishes
it is not given up, and is read to its end by `Source.collect` and, answer by
answer, by `Source.answersToEnd`.
-/

namespace AlloyLexical

namespace Source

/-- Whether an answer ends a source. -/
def Ends {ε : Type} : Except ε Token → Prop
  | .error _ => True
  | .ok t => t.kind = .eof

/-- Read from a state on, a source comes to an answer that ends it. -/
inductive Finishes {ε σ : Type} (read : σ → Except ε Token × σ) : σ → Prop
  | done {s s' : σ} {a : Except ε Token} : read s = (a, s') → Ends a → Finishes read s
  | next {s s' : σ} {t : Token} :
    read s = (.ok t, s') → t.kind ≠ .eof → Finishes read s' → Finishes read s

end Source

/-- A source of tokens with states `σ` and errors `ε`. -/
structure Source (ε σ : Type) where
  /-- The next token, and the state after it. -/
  read : σ → Except ε Token × σ
  /-- A bound on the tokens before the next end token or error, if there is one. -/
  left : σ → Nat
  /-- Tokens are taken from those that are left. -/
  progress : ∀ {s s' : σ} {t : Token}, Source.Finishes read s → read s = (.ok t, s') →
    t.kind ≠ .eof → left s' < left s

namespace Source

variable {ε ε' σ : Type}

/-! ## Sources that finish -/

section Finishes

variable {read : σ → Except ε Token × σ} {s s' : σ}

/-- Where a token is handed out that is no end token, there is an end behind it. -/
theorem Finishes.of_read {t : Token} (h : Finishes read s) (hread : read s = (.ok t, s'))
    (ht : t.kind ≠ .eof) : Finishes read s' := by
  cases h with
  | done hdone hends =>
    rw [hread] at hdone
    cases hdone
    exact absurd hends ht
  | next hnext _ hfinishes =>
    rw [hread] at hnext
    cases hnext
    exact hfinishes

/-- An end behind the next answer is an end, if that answer is none already. -/
theorem finishes_of_read {a : Except ε Token} (hread : read s = (a, s'))
    (h : Finishes read s') : Finishes read s := by
  rcases a with e | t
  · exact .done hread trivial
  · by_cases ht : t.kind = .eof
    · exact .done hread ht
    · exact .next hread ht h

/-- Where each token leaves less than there was, there is an end. -/
theorem finishes_of_lt (left : σ → Nat)
    (h : ∀ {s s' : σ} {t : Token}, read s = (.ok t, s') → t.kind ≠ .eof → left s' < left s)
    (s : σ) : Finishes read s := by
  induction hn : left s using Nat.strongRecOn generalizing s with
  | ind n ih =>
    rcases hread : read s with ⟨e | t, s'⟩
    · exact .done hread trivial
    · by_cases ht : t.kind = .eof
      · exact .done hread ht
      · exact .next hread ht (ih _ (hn ▸ h hread ht) s' rfl)

/-- Readings that answer with an end at the same times finish at the same times. -/
theorem Finishes.map {τ : Type} {read' : τ → Except ε' Token × τ} (h : Finishes read s)
    (f : σ → τ) (hends : ∀ s, Ends (read s).1 → Ends (read' (f s)).1)
    (hnext : ∀ s, f (read s).2 = (read' (f s)).2) : Finishes read' (f s) := by
  induction h with
  | @done s s' a hread ha => exact .done rfl (hends s (by rwa [hread]))
  | @next s s' t hread _ _ ih =>
    have hstate : read' (f s) = ((read' (f s)).1, f s') :=
      Prod.ext rfl (by rw [← hnext, hread])
    exact finishes_of_read hstate ih

end Finishes

variable (S : Source ε σ)

/-- The source with its errors changed. -/
def mapError (f : ε → ε') : Source ε' σ where
  read s := ((S.read s).1.mapError f, (S.read s).2)
  left := S.left
  progress {s s' t} hfinishes h ht := by
    have hends : ∀ a : Except ε Token, Ends (a.mapError f) → Ends a := by
      rintro (e | u) ha
      · trivial
      · exact ha
    have hfinishes : Finishes S.read s :=
      hfinishes.map id (fun s => hends (S.read s).1) fun _ => rfl
    rcases hread : S.read s with ⟨e | u, s''⟩
    · rw [hread] at h
      cases h
    · rw [hread] at h
      cases h
      exact S.progress hfinishes hread ht

/-! ## Reading to the end -/

/-- The tokens `seen`, last first, and those to come before the end. -/
def collectFrom (seen : List Token) (s : σ) : Except ε (List Token) :=
  match S.read s with
  | (.error e, _) => .error e
  | (.ok t, s') =>
    if t.kind = .eof then .ok seen.reverse
    else if S.left s' < S.left s then collectFrom (t :: seen) s'
    -- There is no end to come to.
    else .ok (t :: seen).reverse
termination_by S.left s

/-- The tokens to come before the end, unless an error comes first. -/
def collect (s : σ) : Except ε (List Token) := S.collectFrom [] s

/-! ## Single answers -/

/-- The answers to `n` readings, each with the state after it. An error is the
    last one. -/
def answers : Nat → σ → List (Except ε Token × σ)
  | 0, _ => []
  | n + 1, s =>
    match S.read s with
    | (.error e, s') => [(.error e, s')]
    | (.ok t, s') => (.ok t, s') :: answers n s'

/-- The answers to all readings through the first that gives an end token or an
    error, each with the state after it. -/
def answersToEnd (s : σ) : List (Except ε Token × σ) :=
  match S.read s with
  | (.error e, s') => [(.error e, s')]
  | (.ok t, s') =>
    if t.kind ≠ .eof ∧ S.left s' < S.left s then (.ok t, s') :: answersToEnd s'
    else [(.ok t, s')]
termination_by S.left s

end Source

end AlloyLexical

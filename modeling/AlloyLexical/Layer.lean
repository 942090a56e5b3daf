import AlloyLexical.Error
import AlloyLexical.Layer.Commands
import AlloyLexical.Layer.Declarations
import AlloyLexical.Layer.Operators
import AlloyLexical.Layer.Signs

/-!
# Layers

A *layer* stands on a source of tokens and hands its tokens on, after turning
some of them into others. All layers work alike. A layer has in its memory the
kind of the token it handed out last, and the tokens that it has read but not
yet handed out. To hand out a token, it

* takes one in hand, from its memory or else from the source;
* looks ahead as far as the token in hand asks for (`Layer.outlook`), first over
  its memory and then into the source;
* delivers one token, made of the one in hand and of those it has seen, and
  remembers the rest (`Layer.deliver`).

Layers differ in these two functions, and in two points more. The layer of
commands does not let go of an end token: once it has one it never reads its
source again. And the layer of declarations, which is the lowest one of the
filter, reports every error of its source as the breakdown of that source.

Where its source fails while the layer looks ahead, the token in hand and those
it has seen are lost, except that the layer of commands keeps them
(`Layer.salvage`).

No layer makes a token out of nothing (`Layer.exchange_deliver`): up to the next
end token, those that it holds and those left to its source become fewer with
each one delivered. And there is an end to what a layer hands out only if it
holds an end token or there is an end to its source (`Layer.Bounded`). So a layer
on a source is a source (`Layer.atop`).
-/

namespace AlloyLexical

/-- What is done to the tokens of a text before a grammar sees them. -/
inductive Layer where
  | declarations
  | commands
  | operators
  | signs
deriving DecidableEq

/-- What a layer remembers: the kind of the token it handed out last, and the
    tokens it has read since. -/
structure Memory where
  last : Option TokenKind
  pending : List Token
deriving DecidableEq

namespace Memory

/-- The memory of a layer that has not handed out anything. -/
def empty : Memory := ⟨none, []⟩

end Memory

namespace Layer

/-- The token to hand out and those to remember, given the token in hand and
    those seen behind it. -/
def deliver (l : Layer) (last : Option TokenKind) (t : Token) (ts : List Token) :
    Token × List Token :=
  match l with
  | declarations => Declarations.deliver last t ts
  | commands => Commands.deliver t ts
  | operators => Operators.deliver t ts
  | signs => Signs.deliver last t ts

/-- What the layer waits for with a token in hand; none if it needs no other. -/
def outlook (l : Layer) (last : Option TokenKind) (t : Token) : Option Outlook :=
  match l with
  | declarations => Declarations.outlook last t
  | commands => Commands.outlook t
  | operators => Operators.outlook t
  | signs => Signs.outlook last t

/-- Whether the layer holds on to an end token. -/
def keepsEnd : Layer → Bool
  | commands => true
  | _ => false

/-- How the layer reports an error of its source. -/
def report : Layer → Error → Error
  | declarations, e => e.toFatal
  | _, e => e

/-- What the layer remembers of the tokens that it has looked at, the one in hand
    included, if its source fails on the way. -/
def salvage : Layer → List Token → List Token
  | commands, ts => ts
  | _, _ => []

/-! ## What a delivery leaves -/

/-- An end token is delivered as it is. -/
theorem deliver_of_eof (l : Layer) (last : Option TokenKind) {t : Token} (ts : List Token)
    (h : t.kind = .eof) : l.deliver last t ts = (t, ts) := by
  cases l
  · simp [deliver, Declarations.deliver, h, TokenKind.declaring?]
  · simp only [deliver, Commands.deliver]
    split <;> simp [h]
  · simp [deliver, Operators.deliver, h, TokenKind.isMultiplicity, TokenKind.multiplicity?]
  · simp [deliver, Signs.deliver, h]

/-- Whatever the layer delivers is exchanged for what it has at hand. -/
theorem exchange_deliver (l : Layer) (last : Option TokenKind) (t : Token) (ts : List Token) :
    Exchange t ts (l.deliver last t ts) := by
  cases l with
  | declarations => exact Declarations.exchange_deliver last t ts
  | commands => exact Commands.exchange_deliver t ts
  | operators => exact Operators.exchange_deliver t ts
  | signs => exact Signs.exchange_deliver last t ts

/-- A delivery leaves no more tokens than there were behind the one in hand. -/
theorem length_deliver_le (l : Layer) (last : Option TokenKind) (t : Token) (ts : List Token) :
    (l.deliver last t ts).2.length ≤ ts.length := (l.exchange_deliver last t ts).length_le

/-- A delivery makes no end tokens. -/
theorem deliver_ne_eof (l : Layer) (last : Option TokenKind) {t : Token} {ts : List Token}
    (h : ∀ u ∈ t :: ts, u.kind ≠ .eof) :
    ∀ u ∈ (l.deliver last t ts).1 :: (l.deliver last t ts).2, u.kind ≠ .eof :=
  (l.exchange_deliver last t ts).forall_ne_eof h

/-! ## Handing out tokens -/

variable {σ : Type} (S : Source Error σ)

/-- The token delivered, with what the layer then remembers. -/
def release (l : Layer) (last : Option TokenKind) (t : Token) (ts : List Token) (s : σ) :
    Except Error Token × Memory × σ :=
  let (delivered, rest) := l.deliver last t ts
  -- An end token that is kept is in hand for every further pull.
  let pending := if l.keepsEnd ∧ t.kind = .eof then [t] else rest
  (.ok delivered, ⟨some delivered.kind, pending⟩, s)

/-- The layer with the token `t` in hand and the tokens `ts` behind it. -/
def settle (l : Layer) (last : Option TokenKind) (t : Token) (ts : List Token) (s : σ) :
    Except Error Token × Memory × σ :=
  match (l.outlook last t).bind (·.through ts) with
  -- The tokens that are at hand settle the matter.
  | none => l.release last t ts s
  | some q =>
    let view := q.read S s
    match view.failure with
    | some e => (.error (l.report e), ⟨last, l.salvage (t :: ts ++ view.tokens)⟩, view.state)
    | none => l.release last t (ts ++ view.tokens) view.state

/-- The next token of the layer. -/
def pull (l : Layer) (m : Memory) (s : σ) : Except Error Token × Memory × σ :=
  match m.pending with
  | t :: ts => l.settle S m.last t ts s
  | [] =>
    match S.read s with
    | (.error e, s') => (.error (l.report e), m, s')
    | (.ok t, s') => l.settle S m.last t [] s'

/-! ## A layer on a source -/

/-- There is an end in sight: the layer holds an end token, or its source finishes. -/
def Bounded (m : Memory) (s : σ) : Prop :=
  Source.Finishes S.read s ∨ ∃ t ∈ m.pending, t.kind = .eof

variable {S} {l : Layer} {last : Option TokenKind} {t u : Token} {ts : List Token} {m : Memory}
  {s s' : σ}

/-- A token that is handed out and ends nothing was in hand or behind the one in
    hand. -/
theorem progress_release (h : l.release last t ts s = (.ok u, m, s')) (hu : u.kind ≠ .eof) :
    t.kind ≠ .eof ∧ s' = s ∧
      ∀ n, Token.countToEnd m.pending n ≤ Token.countToEnd ts n := by
  simp only [release, Prod.mk.injEq, Except.ok.injEq] at h
  obtain ⟨rfl, rfl, rfl⟩ := h
  have ht : t.kind ≠ .eof := fun ht => hu (by rw [l.deliver_of_eof last ts ht, ht])
  refine ⟨ht, rfl, fun n => ?_⟩
  simp only [ht, and_false, if_false]
  exact (l.exchange_deliver last t ts).countToEnd_le n

/-- Where the layer looks ahead, that holds of the tokens left to its source as
    well, if there is an end in sight. -/
theorem progress_settle
    (hbounded : t.kind ≠ .eof → Source.Finishes S.read s ∨ ∃ v ∈ ts, v.kind = .eof)
    (h : l.settle S last t ts s = (.ok u, m, s')) (hu : u.kind ≠ .eof) :
    t.kind ≠ .eof ∧ Token.countToEnd m.pending (S.left s') ≤ Token.countToEnd ts (S.left s) := by
  rw [settle] at h
  split at h
  · obtain ⟨ht, rfl, hle⟩ := progress_release h hu
    exact ⟨ht, hle _⟩
  · next q hq =>
    obtain ⟨q₀, -, hthrough⟩ := Option.bind_eq_some_iff.1 hq
    dsimp only at h
    split at h
    · cases h
    · next hview =>
      obtain ⟨ht, rfl, hle⟩ := progress_release h hu
      -- An end token at hand would have settled the matter.
      have hs : Source.Finishes S.read s := by
        refine (hbounded ht).resolve_right ?_
        rintro ⟨v, hv, hend⟩
        exact Outlook.ne_eof_of_through hthrough v hv hend
      refine ⟨ht, Nat.le_trans (hle _) ?_⟩
      rw [Token.countToEnd_append]
      exact Token.countToEnd_le_of_le ts (Outlook.countToEnd_view_le hs q hview)

theorem bounded_of_release (ht : t.kind ≠ .eof)
    (h : Source.Ends (l.release last t ts s).1 ∨ Bounded S (l.release last t ts s).2.1 s) :
    Source.Finishes S.read s ∨ ∃ v ∈ ts, v.kind = .eof := by
  by_cases hts : ∀ v ∈ ts, v.kind ≠ .eof
  · -- Then no end token is delivered, and none left.
    obtain ⟨hdelivered, hrest⟩ :=
      List.forall_mem_cons.1 (l.deliver_ne_eof last (List.forall_mem_cons.2 ⟨ht, hts⟩))
    simp only [release, ht, and_false, if_false] at h
    rcases h with hends | hs | ⟨v, hv, hend⟩
    · exact absurd hends hdelivered
    · exact .inl hs
    · exact absurd hend (hrest v hv)
  · right
    simpa using hts

theorem bounded_of_settle (ht : t.kind ≠ .eof)
    (h : Source.Ends (l.settle S last t ts s).1 ∨
      Bounded S (l.settle S last t ts s).2.1 (l.settle S last t ts s).2.2) :
    Source.Finishes S.read s ∨ ∃ v ∈ ts, v.kind = .eof := by
  rw [settle] at h
  split at h
  · exact bounded_of_release ht h
  · next q _ =>
    dsimp only at h
    split at h
    · next hview => exact .inl (Outlook.finishes_of_view (.inr (.inl (by rw [hview]; rfl))))
    · rcases bounded_of_release ht h with hs | ⟨v, hv, hend⟩
      · exact .inl (Outlook.finishes_of_view (.inl hs))
      · rcases List.mem_append.1 hv with hv | hv
        · exact .inr ⟨v, hv, hend⟩
        · exact .inl (Outlook.finishes_of_view (.inr (.inr ⟨v, hv, hend⟩)))

/-- If there is an end to a pull, or in sight behind it, there was one in sight. -/
theorem bounded_of_pull (h : Source.Ends (l.pull S m s).1 ∨
    Bounded S (l.pull S m s).2.1 (l.pull S m s).2.2) : Bounded S m s := by
  obtain ⟨last, _ | ⟨t, ts⟩⟩ := m
  · -- The token in hand is the first one read.
    rcases hread : S.read s with ⟨e | t, s'⟩
    · exact .inl (.done hread trivial)
    · by_cases ht : t.kind = .eof
      · exact .inl (.done hread ht)
      · simp only [pull, hread] at h
        rcases bounded_of_settle ht h with hs | ⟨v, hv, -⟩
        · exact .inl (.next hread ht hs)
        · cases hv
  · -- The token in hand comes from the memory.
    by_cases ht : t.kind = .eof
    · exact .inr ⟨t, List.mem_cons_self, ht⟩
    · exact (bounded_of_settle ht h).imp_right fun ⟨v, hv, hend⟩ =>
        ⟨v, List.mem_cons_of_mem t hv, hend⟩

theorem bounded_of_finishes {st : Memory × σ}
    (h : Source.Finishes (fun st => l.pull S st.1 st.2) st) : Bounded S st.1 st.2 := by
  induction h with
  | done hpull ha => exact bounded_of_pull (.inl (by rwa [hpull]))
  | next hpull _ _ ih => exact bounded_of_pull (.inr (by rwa [hpull]))

variable (S)

/-- The layer on a source, with a memory beside the state of that source. -/
def atop (l : Layer) : Source Error (Memory × σ) where
  read s := l.pull S s.1 s.2
  left s := Token.countToEnd s.1.pending (S.left s.2)
  progress := by
    rintro ⟨⟨last, _ | ⟨t, ts⟩⟩, s⟩ ⟨m, s'⟩ u hfinishes h hu
    · -- The token in hand is the first one read, so that the source finishes.
      have hs : Source.Finishes S.read s :=
        (bounded_of_finishes hfinishes).resolve_right fun ⟨v, hv, _⟩ => List.not_mem_nil hv
      simp only [pull] at h
      split at h
      · cases h
      · next t s'' hread =>
        obtain ⟨ht, hle⟩ := progress_settle (fun ht => .inl (hs.of_read hread ht)) h hu
        exact Nat.lt_of_le_of_lt hle (S.progress hs hread ht)
    · -- The token in hand comes from the memory.
      have hbounded : t.kind ≠ .eof → Source.Finishes S.read s ∨ ∃ v ∈ ts, v.kind = .eof :=
        fun ht => (bounded_of_finishes hfinishes).imp_right fun ⟨v, hv, hend⟩ =>
          ⟨v, (List.mem_cons.1 hv).resolve_left (by rintro rfl; exact ht hend), hend⟩
      obtain ⟨ht, hle⟩ := progress_settle hbounded h hu
      exact Nat.lt_of_le_of_lt hle (by simp [Token.countToEnd, ht])

end Layer

end AlloyLexical

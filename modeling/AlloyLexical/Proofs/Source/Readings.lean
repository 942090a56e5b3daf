import Mathlib.Logic.Function.Iterate
import Mathlib.Logic.Relation
import AlloyLexical.Proofs.Source.Yields
import AlloyLexical.Source.Counted
import AlloyLexical.Source.TokenList

/-!
# Where readings lead

A state of a source is *reached* from another by reading (`Source.Reaches`). What
a source yields leads to the state it is left in, through states from which that
one is still reached; if the source stays there, so do all further readings
(`Source.Yields.exists_answer`).

A well-behaved source *gives* some tokens and then nothing but the same end
token (`Source.Gives`). It need not stay in one state for that: all it takes is
a property of the states that gives the end token and that reading keeps
(`Source.gives_nil_of_invariant`).

Where just so many readings lead is told by `Source.after`, and `Source.Hands` says which
tokens come of them, end tokens included. What a source yields before an end token it hands
out together with it (`Source.Yields.hands`).

Counting the readings of a source changes nothing about what it yields
(`Counted.yields`), and no reading takes the count back
(`Counted.readings_le_of_reaches`).
-/

namespace AlloyLexical

namespace Source

variable {ε σ : Type}

/-- Readings lead from the first state to the second. -/
def Reaches (S : Source ε σ) : σ → σ → Prop :=
  Relation.ReflTransGen fun s s' => (S.read s).2 = s'

variable {S : Source ε σ} {s s' : σ}

theorem reaches_read (S : Source ε σ) (s : σ) : S.Reaches s (S.read s).2 := .single rfl

theorem Yields.reaches {ts : List Token} {a : Except ε Token} (h : S.Yields s ts a s') :
    S.Reaches s s' := by
  induction h with
  | done hread _ => exact .single (by rw [hread])
  | next hread _ _ ih => exact .head (by rw [hread]) ih

/-! ## Answers at the end -/

/-- A source that stays in a state gives the same answer to all readings. -/
theorem answers_of_stays {z : Token} (h : S.read s = (.ok z, s)) (n : Nat) :
    S.answers n s = List.replicate n (.ok z, s) := by
  induction n with
  | zero => rfl
  | succ n ih =>
    simp only [answers, h, ih]
    rfl

/-- A source that stays where it has come to its end answers with its tokens and
    then with the end token, however often it is read. -/
theorem Yields.exists_answer {ts : List Token} {z : Token} (h : S.Yields s ts (.ok z) s')
    (hstays : S.read s' = (.ok z, s')) {n i : Nat} (hi : i < n) :
    ∃ s₁, (S.answers n s)[i]? = some (.ok (ts.getD i z), s₁) ∧ S.Reaches s₁ s' ∧
      (ts.length ≤ i → s₁ = s') := by
  generalize ha : (Except.ok z : Except ε Token) = a at h
  induction h generalizing n i with
  | @done s s' a hread _ =>
    subst ha
    obtain ⟨n, rfl⟩ := Nat.exists_eq_add_one_of_ne_zero (Nat.ne_zero_of_lt hi)
    refine ⟨s', ?_, .refl, fun _ => rfl⟩
    have hanswers : S.answers (n + 1) s = List.replicate (n + 1) (.ok z, s') := by
      simp only [answers, hread, answers_of_stays hstays]
      rfl
    rw [hanswers, List.getElem?_replicate, if_pos hi]
    rfl
  | @next s s₁ s' t ts a hread _ hts ih =>
    obtain ⟨n, rfl⟩ := Nat.exists_eq_add_one_of_ne_zero (Nat.ne_zero_of_lt hi)
    have hanswers : S.answers (n + 1) s = (.ok t, s₁) :: S.answers n s₁ := by
      simp only [answers, hread]
    rw [hanswers]
    rcases i with _ | i
    · exact ⟨s₁, rfl, hts.reaches, fun hle => absurd hle (Nat.not_succ_le_zero _)⟩
    · obtain ⟨s₂, hs₂, hreaches, hend⟩ := ih hstays (Nat.lt_of_succ_lt_succ hi) ha
      exact ⟨s₂, hs₂, hreaches, fun hle => hend (Nat.le_of_succ_le_succ hle)⟩

/-! ## Sources that go on at their end -/

/-- However often the source is read, the answers are the tokens `ts` and then
    the token `z` for ever. -/
def Gives (S : Source ε σ) (s : σ) (ts : List Token) (z : Token) : Prop :=
  ∀ n, (S.answers n s).map Prod.fst = (List.range n).map fun i => .ok (ts.getD i z)

/-- The first reading, and those that follow it. -/
theorem gives_iff {ts : List Token} {z : Token} :
    S.Gives s ts z ↔ ∃ s', S.read s = (.ok (ts.headD z), s') ∧ S.Gives s' ts.tail z := by
  have hfirst : ts.getD 0 z = ts.headD z := by cases ts <;> rfl
  have hrest : ∀ i, ts.getD (i + 1) z = ts.tail.getD i z := by cases ts <;> exact fun _ => rfl
  have hrange : ∀ n, ((List.range (n + 1)).map fun i => (.ok (ts.getD i z) : Except ε Token)) =
      .ok (ts.headD z) :: (List.range n).map fun i => .ok (ts.tail.getD i z) := fun n => by
    simp only [List.range_succ_eq_map, List.map_cons, List.map_map, Function.comp_def, hfirst,
      hrest]
  constructor
  · intro h
    have hanswers : ∀ n, (S.answers (n + 1) s).map Prod.fst = _ := fun n => (h _).trans (hrange n)
    simp only [answers] at hanswers
    rcases hread : S.read s with ⟨e | t, s'⟩
    · simp only [hread] at hanswers
      cases hanswers 0
    · simp only [hread, List.map_cons, List.cons.injEq] at hanswers
      obtain rfl := Except.ok.inj (hanswers 0).1
      exact ⟨s', rfl, fun n => (hanswers n).2⟩
  · rintro ⟨s', hread, h⟩ n
    rcases n with _ | n
    · rfl
    · simp only [answers, hread, List.map_cons, hrange, h n]

/-- A property of states that gives a token and that reading keeps gives this
    token for ever. -/
theorem gives_nil_of_invariant {P : σ → Prop} {z : Token}
    (hread : ∀ s, P s → ∃ s', S.read s = (.ok z, s') ∧ P s') (hs : P s) : S.Gives s [] z := by
  intro n
  induction n generalizing s with
  | zero => rfl
  | succ n ih =>
    obtain ⟨s', hs', hP⟩ := hread s hs
    simp only [answers, hs', List.map_cons, ih hP, List.range_succ_eq_map, List.map_map]
    rfl

/-- What a source yields before an end token, and what it then goes on with. -/
theorem Yields.gives {ts : List Token} {z : Token} (h : S.Yields s ts (.ok z) s')
    (hend : S.Gives s' [] z) : S.Gives s ts z := by
  generalize ha : (Except.ok z : Except ε Token) = a at h
  induction h with
  | done hread _ =>
    subst ha
    exact gives_iff.2 ⟨_, hread, hend⟩
  | next hread _ _ ih => exact gives_iff.2 ⟨_, hread, ih hend ha⟩

/-- A source that gives tokens before an end token yields them, and goes on with
    the end token. -/
theorem Gives.exists_yields {ts : List Token} {z : Token} (h : S.Gives s ts z)
    (hts : ∀ t ∈ ts, t.kind ≠ .eof) (hz : z.kind = .eof) :
    ∃ s', S.Yields s ts (.ok z) s' ∧ S.Gives s' [] z := by
  induction ts generalizing s with
  | nil =>
    obtain ⟨s', hread, hend⟩ := gives_iff.1 h
    exact ⟨s', .done hread hz, hend⟩
  | cons t ts ih =>
    obtain ⟨s₁, hread, hrest⟩ := gives_iff.1 h
    obtain ⟨ht, hts⟩ := List.forall_mem_cons.1 hts
    obtain ⟨s', hyields, hend⟩ := ih hrest hts
    exact ⟨s', .next hread ht hyields, hend⟩

/-! ## Reading on -/

/-- The state after `n` readings. -/
def after (S : Source ε σ) (n : Nat) (s : σ) : σ := (fun s => (S.read s).2)^[n] s

theorem after_succ (S : Source ε σ) (n : Nat) (s : σ) :
    S.after (n + 1) s = S.after n (S.read s).2 := rfl

theorem after_add (S : Source ε σ) (m n : Nat) (s : σ) :
    S.after (m + n) s = S.after n (S.after m s) := by
  rw [Nat.add_comm]
  exact Function.iterate_add_apply _ n m s

/-- The next readings hand out the tokens of a list, and as long as they do there is an
    end to come to. What comes behind them is left open. -/
def Hands (S : Source ε σ) : σ → List Token → Prop
  | _, [] => True
  | s, t :: ts => Finishes S.read s ∧ (S.read s).1 = .ok t ∧ Hands S (S.read s).2 ts

theorem Hands.drop {ts : List Token} (h : S.Hands s ts) (n : Nat) :
    S.Hands (S.after n s) (ts.drop n) := by
  induction n generalizing s ts with
  | zero => exact h
  | succ n ih =>
    rcases ts with _ | ⟨t, ts⟩
    · trivial
    · exact ih h.2.2

theorem Yields.hands {ts : List Token} {z : Token} (h : S.Yields s ts (.ok z) s') :
    S.Hands s (ts ++ [z]) := by
  generalize ha : (Except.ok z : Except ε Token) = a at h
  induction h with
  | done hread hends => exact ⟨.done hread hends, by rw [hread, ha], trivial⟩
  | next hread ht hts ih =>
    exact ⟨.next hread ht hts.finishes, by rw [hread], by rw [hread]; exact ih ha⟩

/-- The answers to some readings, as far as it is known which tokens they hand out. -/
theorem Hands.answers {ts : List Token} (h : S.Hands s ts) {n : Nat} (hn : n ≤ ts.length) :
    (S.answers n s).map Prod.fst = (ts.take n).map .ok := by
  induction n generalizing s ts with
  | zero => rfl
  | succ n ih =>
    rcases ts with _ | ⟨t, ts⟩
    · cases hn
    · obtain ⟨-, hread, hrest⟩ := h
      obtain ⟨s', hs'⟩ : ∃ s', S.read s = (.ok t, s') := ⟨_, Prod.ext hread rfl⟩
      rw [hs'] at hrest
      simp only [Source.answers, hs', List.map_cons, List.take_succ_cons,
        ih hrest (Nat.le_of_succ_le_succ hn)]

end Source

/-- A list without end tokens gives its tokens, and then an end token of the span
    at its end. -/
theorem TokenList.gives (ε : Type) {ts : List Token} (hts : ∀ t ∈ ts, t.kind ≠ .eof)
    (ending : Span) : (source ε).Gives ⟨ts, ending⟩ ts (Token.eof ending) := by
  induction ts with
  | nil =>
    refine Source.gives_nil_of_invariant (P := fun l => l = ⟨[], ending⟩) ?_ rfl
    rintro _ rfl
    exact ⟨_, rfl, rfl⟩
  | cons t ts ih =>
    obtain ⟨ht, hts⟩ := List.forall_mem_cons.1 hts
    exact Source.gives_iff.2 ⟨⟨ts, ending⟩, by simp [source, next, ht], ih hts⟩

/-! ## Counting -/

namespace Counted

variable {ε σ : Type} {S : Source ε σ}

theorem yields {s s' : σ} {ts : List Token} {a : Except ε Token} (h : S.Yields s ts a s')
    (k : Nat) : (source S).Yields ⟨s, k⟩ ts a ⟨s', k + ts.length + 1⟩ := by
  induction h generalizing k with
  | done hread ha => exact .done (by simp only [source, hread, List.length_nil, Nat.add_zero]) ha
  | @next s s₁ s' t ts a hread ht _ ih =>
    have hlength : k + (t :: ts).length + 1 = k + 1 + ts.length + 1 := by
      rw [List.length_cons]
      omega
    rw [hlength]
    exact .next (by simp only [source, hread]) ht (ih (k + 1))

/-- The count of readings grows on for ever, and the tokens are the same. -/
theorem gives {s : σ} {ts : List Token} {z : Token} (h : S.Gives s ts z) (k : Nat) :
    (source S).Gives ⟨s, k⟩ ts z := by
  have hanswers : ∀ n (s : σ) k, ((source S).answers n ⟨s, k⟩).map Prod.fst =
      (S.answers n s).map Prod.fst := by
    intro n
    induction n with
    | zero => exact fun _ _ => rfl
    | succ n ih =>
      intro s k
      simp only [Source.answers, source]
      rcases S.read s with ⟨e | t, s'⟩
      · rfl
      · exact congrArg (_ :: ·) (ih s' (k + 1))
  exact fun n => (hanswers n s k).trans (h n)

/-- Every reading counts. -/
theorem after_mk (n : Nat) (s : σ) (k : Nat) :
    (source S).after n ⟨s, k⟩ = ⟨S.after n s, k + n⟩ := by
  induction n generalizing s k with
  | zero => rfl
  | succ n ih =>
    exact (ih _ (k + 1)).trans (congrArg (Counted.mk _) (Nat.add_right_comm k 1 n))

theorem readings_le_of_reaches {c c' : Counted σ} (h : (source S).Reaches c c') :
    c.readings ≤ c'.readings := by
  induction h with
  | refl => exact Nat.le_refl _
  | tail _ hread ih =>
    rw [← hread]
    exact Nat.le_succ_of_le ih

end Counted

end AlloyLexical

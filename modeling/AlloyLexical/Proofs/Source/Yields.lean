import Mathlib.Data.List.TakeWhile
import Mathlib.Order.Lattice.Nat
import AlloyLexical.Source.Text
import AlloyLexical.Source.TokenList

/-!
# What a source yields

Read again and again, a source hands out tokens until it gives an answer that
*ends* it, an error or an end token. `Source.Yields` says which tokens these
are, what the answer is, and in which state the source is left by it. What
happens from there on is left open.

* A source that finishes yields something (`Source.Finishes.exists_yields`), and
  `Source.collect` is how to get at it (`Source.Yields.collect_eq`);
* any way of reading is that of a source (`Source.ofRead`), also one that goes on
  for ever;
* a list of tokens yields its tokens before the first end token
  (`TokenList.yields`), a text those that it is tokenized into
  (`tokenize_eq_ok_iff_yields`).
-/

namespace AlloyLexical

namespace Source

variable {ε ε' σ : Type}

/-- Read from a state on, the source hands out the tokens `ts`, none of which
    ends it, and then gives the answer `a`, which does. -/
inductive Yields (S : Source ε σ) : σ → List Token → Except ε Token → σ → Prop
  | done {s s' : σ} {a : Except ε Token} : S.read s = (a, s') → Ends a → Yields S s [] a s'
  | next {s s' s'' : σ} {t : Token} {ts : List Token} {a : Except ε Token} :
    S.read s = (.ok t, s') → t.kind ≠ .eof → Yields S s' ts a s'' → Yields S s (t :: ts) a s''

variable {S : Source ε σ} {s s' : σ} {ts : List Token} {a : Except ε Token}

/-- A source that finishes hands out some tokens and then gives an answer that ends
    it. -/
theorem Finishes.exists_yields (h : Finishes S.read s) : ∃ ts a s', S.Yields s ts a s' := by
  induction h with
  | done hread ha => exact ⟨[], _, _, .done hread ha⟩
  | next hread ht _ ih =>
    obtain ⟨ts, a, s', hts⟩ := ih
    exact ⟨_ :: ts, a, s', .next hread ht hts⟩

theorem Yields.finishes (h : S.Yields s ts a s') : Finishes S.read s := by
  induction h with
  | done hread ha => exact .done hread ha
  | next hread ht _ ih => exact .next hread ht ih

theorem Yields.ends (h : S.Yields s ts a s') : Ends a := by
  induction h with
  | done _ ha => exact ha
  | next _ _ _ ih => exact ih

/-- Only the answer that ends a source may be an end token. -/
theorem Yields.ne_eof (h : S.Yields s ts a s') : ∀ t ∈ ts, t.kind ≠ .eof := by
  induction h with
  | done => exact fun _ ht => absurd ht List.not_mem_nil
  | next _ ht _ ih => exact List.forall_mem_cons.2 ⟨ht, ih⟩

/-- What is yielded depends on what the first reading gives. -/
theorem Yields.congr {s₁ : σ} (h : S.Yields s ts a s') (hread : S.read s₁ = S.read s) :
    S.Yields s₁ ts a s' := by
  cases h with
  | done h ha => exact .done (hread.trans h) ha
  | next h ht hts => exact .next (hread.trans h) ht hts

/-- What is collected are the tokens that are yielded, or the error. -/
theorem Yields.collect_eq (h : S.Yields s ts a s') : S.collect s = a.map fun _ => ts := by
  have key : ∀ seen, S.collectFrom seen s = a.map fun _ => seen.reverse ++ ts := by
    induction h with
    | @done s s' a hread ha =>
      intro seen
      rw [collectFrom, hread]
      rcases a with e | z
      · rfl
      · have hz : z.kind = .eof := ha
        simp [hz, Except.map]
    | @next s s' s'' t ts a hread ht hts ih =>
      intro seen
      have hlt := S.progress (.next hread ht hts.finishes) hread ht
      rw [collectFrom, hread]
      simp [ht, hlt, ih]
  exact key []

/-- Tokens are collected where they are yielded before an end token. -/
theorem Finishes.collect_eq_ok_iff (hs : Finishes S.read s) :
    S.collect s = .ok ts ↔ ∃ z s', S.Yields s ts (.ok z) s' := by
  constructor
  · intro h
    obtain ⟨us, e | z, s', hyields⟩ := hs.exists_yields
    · rw [hyields.collect_eq] at h
      cases h
    · rw [hyields.collect_eq] at h
      cases h
      exact ⟨z, s', hyields⟩
  · rintro ⟨z, s', h⟩
    exact h.collect_eq

/-- An error is collected where it ends what is yielded. -/
theorem Finishes.collect_eq_error_iff (hs : Finishes S.read s) {e : ε} :
    S.collect s = .error e ↔ ∃ ts s', S.Yields s ts (.error e) s' := by
  constructor
  · intro h
    obtain ⟨us, e' | z, s', hyields⟩ := hs.exists_yields
    · rw [hyields.collect_eq] at h
      cases h
      exact ⟨us, s', hyields⟩
    · rw [hyields.collect_eq] at h
      cases h
  · rintro ⟨ts, s', h⟩
    exact h.collect_eq

theorem Yields.mapError (f : ε → ε') (h : S.Yields s ts a s') :
    (S.mapError f).Yields s ts (a.mapError f) s' := by
  induction h with
  | @done s s' a hread ha =>
    refine .done (by simp [Source.mapError, hread]) ?_
    rcases a with e | t
    · trivial
    · exact ha
  | next hread ht _ ih => exact .next (by simp [Source.mapError, hread, Except.mapError]) ht ih

/-! ## Any way of reading -/

section

variable (read : σ → Except ε Token × σ)

/-- The numbers of readings behind which comes an answer that ends it. -/
def endings (s : σ) : Set Nat := {n | Ends (read ((fun s => (read s).2)^[n] s)).1}

theorem zero_mem_endings_iff {s : σ} : 0 ∈ endings read s ↔ Ends (read s).1 := Iff.rfl

theorem succ_mem_endings_iff {s : σ} {n : Nat} :
    n + 1 ∈ endings read s ↔ n ∈ endings read (read s).2 := Iff.rfl

theorem Finishes.endings_nonempty {s : σ} (h : Finishes read s) : (endings read s).Nonempty := by
  induction h with
  | done hread ha => exact ⟨0, by rwa [zero_mem_endings_iff, hread]⟩
  | next hread _ _ ih =>
    obtain ⟨n, hn⟩ := ih
    exact ⟨n + 1, by rwa [succ_mem_endings_iff, hread]⟩

theorem sInf_endings_lt {s s' : σ} {t : Token} (h : Finishes read s) (hread : read s = (.ok t, s'))
    (ht : t.kind ≠ .eof) : sInf (endings read s') < sInf (endings read s) := by
  have hmem := Nat.sInf_mem h.endings_nonempty
  rcases hn : sInf (endings read s) with _ | n
  · -- The first answer does not end it.
    rw [hn, zero_mem_endings_iff, hread] at hmem
    exact absurd hmem ht
  · rw [hn, succ_mem_endings_iff, hread] at hmem
    exact Nat.lt_succ_of_le (Nat.sInf_le hmem)

/-- Every way of reading is that of a source: nothing keeps it from going on for
    ever. -/
noncomputable def ofRead : Source ε σ where
  read := read
  left s := sInf (endings read s)
  progress := sInf_endings_lt read

end

end Source

/-! ## Texts -/

theorem tokenize_eq_ok_iff_yields {text : String} {ts : List Token} :
    tokenize text = .ok ts ↔
      ∃ z s, Scanner.source.Yields (Scanner.ofText text none 0) ts (.ok z) s :=
  (Scanner.finishes _).collect_eq_ok_iff

theorem tokenize_eq_error_iff_yields {text : String} {e : ScanError} :
    tokenize text = .error e ↔
      ∃ ts s, Scanner.source.Yields (Scanner.ofText text none 0) ts (.error e) s :=
  (Scanner.finishes _).collect_eq_error_iff

/-! ## Lists of tokens -/

namespace TokenList

/-- The tokens of a list before the first end token. -/
def untilEnd (ts : List Token) : List Token := ts.takeWhile fun t => !t.isEof

theorem untilEnd_eq_self {ts : List Token} (h : ∀ t ∈ ts, t.kind ≠ .eof) : untilEnd ts = ts :=
  List.takeWhile_eq_self_iff.2 fun t ht => by simpa [Token.isEof] using h t ht

/-- A list hands out its tokens before the first end token, then an end token. -/
theorem yields (ε : Type) (l : TokenList) :
    ∃ z l', (source ε).Yields l (untilEnd l.tokens) (.ok z) l' := by
  obtain ⟨ts, ending⟩ := l
  induction ts with
  | nil => exact ⟨Token.eof ending, ⟨[], ending⟩, .done rfl rfl⟩
  | cons t ts ih =>
    by_cases ht : t.kind = .eof
    · refine ⟨t, ⟨[], t.span⟩, ?_⟩
      rw [untilEnd, List.takeWhile_cons_of_neg (by simp [ht])]
      exact .done (by simp [source, next, ht]) ht
    · obtain ⟨z, l', h⟩ := ih
      refine ⟨z, l', ?_⟩
      rw [untilEnd, List.takeWhile_cons_of_pos (by simp [Token.isEof, ht])]
      exact .next (by simp [source, next, ht]) ht h

theorem yields_ofList (ε : Type) (ts : List Token) :
    ∃ z l, (source ε).Yields (ofList ts) (untilEnd ts) (.ok z) l := yields ε (ofList ts)

end TokenList

end AlloyLexical

import AlloyLexical.Proofs.Filter.Staging
import AlloyLexical.Proofs.Layer.Ending

/-!
# How often the filter reads

The filter reads every token of its source once, and nothing behind the first end
token (`Filter.reads_once`). Its layers look at the same tokens again and again,
but only at those in their memories; and once the end token has come as far as
the layer of commands, no reading gets past that layer.

The source may be any: it may go on behind the end token in whatever way, and for ever.

The count of readings says so: it never falls, and where the filter has handed
out the end token it stays at one for each token and one for the end
(`Stack.read_ended`).
-/

namespace AlloyLexical

namespace Filter

variable {σ : Type} {S : Source Error σ} {s s' : σ}

/-- A filter on a source that hands out the tokens `p` and then the end token `z`
    gives the tokens it makes of `p` and then `z`, however often it is pulled. Its
    source is read no more than once for each token of `p` and once for `z`, and
    just as often as that once `z` is handed out. What the source would do behind
    `z`, in the state `s'`, makes no difference. -/
theorem reads_once {p : List Token} {z : Token} (h : S.Yields s p (.ok z) s') :
    ∃ out, filterTokens p = .ok out ∧ (∀ t ∈ out, t.kind ≠ .eof) ∧
      ∀ pulls i, i < pulls → ∃ st,
        ((source (Counted.source S)).answers pulls
          (Stack.fresh (Counted.fresh s) layers))[i]? = some (.ok (out.getD i z), st) ∧
        st.base.readings ≤ p.length + 1 ∧ (out.length ≤ i → st.base.readings = p.length + 1) := by
  have hz : z.kind = .eof := h.ends
  have hrun := Stack.yields_ended (Counted.yields h 0) layers
  have hstays := Stack.read_ended (S := Counted.source S) hz ⟨s', 0 + p.length + 1⟩
    (show .commands ∈ layers by decide)
  have hend : (Stack.ended z (⟨s', 0 + p.length + 1⟩ : Counted σ) layers).base.readings =
      p.length + 1 := by
    rw [Stack.base_ended, Nat.zero_add]
  refine ⟨Stack.rewrite layers p, filterTokens_eq h.ne_eof, hrun.ne_eof, fun pulls i hi => ?_⟩
  obtain ⟨st, hanswer, hreaches, hst⟩ := hrun.exists_answer hstays hi
  refine ⟨st, hanswer, ?_, fun hle => ?_⟩
  · rw [← hend]
    exact Counted.readings_le_of_reaches (Stack.reaches_base hreaches)
  · rw [hst hle, hend]

/-- A named command, on a source that goes on behind its end token for ever, without
    another one. -/
theorem reads_once_named_command :
    let t (kind : TokenKind) (column : Nat) : Token := ⟨kind, none, .point none ⟨1, column⟩⟩
    let p := [t .ident 1, t .colon 2, t (.keyword .run) 3]
    let read (i : Nat) : Except Error Token × Nat :=
      (.ok ((p ++ [t .eof 4])[i]?.getD (t .ident 5)), i + 1)
    let S := Source.ofRead read
    ¬Source.Finishes S.read 4 ∧ S.Yields 0 p (.ok (t .eof 4)) 4 ∧
      ∃ st, ((source (Counted.source S)).answers 9
          (Stack.fresh (Counted.fresh 0) layers))[8]? = some (.ok (t .eof 4), st) ∧
        st.base.readings = 4 := by
  intro t p read S
  have hendless : ∀ i, Source.Finishes read i → ¬4 ≤ i := by
    intro i hfinishes hi
    have hread : ∀ i, 4 ≤ i → read i = (.ok (t .ident 5), i + 1) := fun i hi => by
      simp [read, p, hi]
    induction hfinishes with
    | @done i _ _ hdone hends =>
      rw [hread i hi] at hdone
      cases hdone
      cases hends
    | @next i _ _ hnext _ _ ih =>
      rw [hread i hi] at hnext
      cases hnext
      exact ih (Nat.le_succ_of_le hi)
  have hs : S.Yields 0 p (.ok (t .eof 4)) 4 :=
    .next rfl (fun h => by cases h) (.next rfl (fun h => by cases h)
      (.next rfl (fun h => by cases h) (.done rfl rfl)))
  have hp : filterTokens p = .ok [t (.keyword .run) 3, t .dot 2, t .ident 1] := by decide +kernel
  obtain ⟨out, hout, -, hpulls⟩ := reads_once hs
  obtain rfl := Except.ok.inj (hp.symm.trans hout)
  obtain ⟨st, hst, -, hreadings⟩ := hpulls 9 8 (by decide)
  exact ⟨fun h => hendless 4 h (Nat.le_refl 4), hs, st, hst, hreadings (by decide)⟩

end Filter

end AlloyLexical

import AlloyLexical.Proofs.Filter.Staging
import AlloyLexical.Proofs.Layer.Placement

/-!
# Filtering by meanings

What the filter makes of tokens is decided by their kinds and payloads alone, and
the places of what it makes are merged of the places it was given:

* tokens of the same meanings are filtered into tokens of the same meanings,
  wherever the ones and the others stand (`filterTokens_map_meaning`);
* a move that preserves merged spans may as well be made after filtering
  (`filterTokens_map_moved`).

The first follows from the second. A move that puts all tokens into one and the
same place preserves merged spans, and then leaves nothing of a token but its
meaning (`Token.map_moved_const_iff`).
-/

namespace AlloyLexical

/-- To move every span to the same place preserves merged spans. -/
theorem Span.preservesMerge_const (a : Span) : PreservesMerge fun _ => a :=
  fun _ _ => (merge_self a).symm

theorem Token.map_moved_const_iff {ts us : List Token} (a : Span) :
    ts.map (moved fun _ => a) = us.map (moved fun _ => a) ↔ ts.map meaning = us.map meaning := by
  have hmoved (ts : List Token) :
      ts.map (moved fun _ => a) = (ts.map meaning).map fun m => ⟨m.1, m.2, a⟩ := by
    rw [List.map_map]
    rfl
  have hmeaning (ts : List Token) :
      ts.map meaning = (ts.map (moved fun _ => a)).map meaning := by
    rw [List.map_map]
    rfl
  constructor
  · intro h
    rw [hmeaning ts, h, ← hmeaning us]
  · intro h
    rw [hmoved ts, h, ← hmoved us]

theorem TokenList.untilEnd_moved (f : Span → Span) (ts : List Token) :
    untilEnd (ts.map (Token.moved f)) = (untilEnd ts).map (Token.moved f) := List.takeWhile_map

theorem filterTokens_map_moved {f : Span → Span} (hf : Span.PreservesMerge f) (ts : List Token) :
    ∃ out, filterTokens ts = .ok out ∧
      filterTokens (ts.map (Token.moved f)) = .ok (out.map (Token.moved f)) := by
  refine ⟨_, Stack.collect_ofList Filter.layers ts, ?_⟩
  rw [← Stack.rewrite_moved hf, ← TokenList.untilEnd_moved]
  exact Stack.collect_ofList Filter.layers (ts.map (Token.moved f))

theorem filterTokens_map_meaning {ts us : List Token}
    (h : ts.map Token.meaning = us.map Token.meaning) :
    ∃ out out', filterTokens ts = .ok out ∧ filterTokens us = .ok out' ∧
      out.map Token.meaning = out'.map Token.meaning := by
  -- In one and the same place, the tokens and what is made of them are equal.
  let a : Span := .point none ⟨1, 1⟩
  obtain ⟨out, hout, hmoved⟩ := filterTokens_map_moved (Span.preservesMerge_const a) ts
  obtain ⟨out', hout', hmoved'⟩ := filterTokens_map_moved (Span.preservesMerge_const a) us
  rw [(Token.map_moved_const_iff a).2 h] at hmoved
  have hsame := Except.ok.inj (hmoved.symm.trans hmoved')
  exact ⟨out, out', hout, hout', (Token.map_moved_const_iff a).1 hsame⟩

/-- The filter never fails on tokens. Of tokens of the same meanings it makes
    tokens of the same meanings, and if the ones are the others moved in a way that
    preserves merged spans, so is what it makes of them. -/
theorem filterTokens_regardless_of_place :
    (∀ ts us : List Token, ts.map Token.meaning = us.map Token.meaning →
      ∃ out out', filterTokens ts = .ok out ∧ filterTokens us = .ok out' ∧
        out.map Token.meaning = out'.map Token.meaning) ∧
    ∀ f, Span.PreservesMerge f → ∀ ts : List Token, ∃ out, filterTokens ts = .ok out ∧
      filterTokens (ts.map (Token.moved f)) = .ok (out.map (Token.moved f)) :=
  ⟨fun _ _ => filterTokens_map_meaning, fun _ => filterTokens_map_moved⟩

/-- The tokens of `! in`, the second one in front of the first and in no file, then
    both of them in one place, and then without their file. -/
theorem filterTokens_regardless_of_place_negation :
    let ts : List Token := [⟨.not, none, ⟨some "a", ⟨1, 5⟩, ⟨1, 5⟩⟩⟩,
      ⟨.relation .subset, none, ⟨none, ⟨1, 1⟩, ⟨1, 2⟩⟩⟩]
    let us : List Token := ts.map (Token.moved fun _ => .point none ⟨2, 7⟩)
    let f (a : Span) : Span := ⟨none, a.start, a.stop⟩
    ts.map Token.meaning = us.map Token.meaning ∧ Span.PreservesMerge f ∧
      filterTokens ts = .ok [⟨.notRelation .subset, none, ⟨some "a", ⟨1, 1⟩, ⟨1, 5⟩⟩⟩] ∧
      (∃ out, filterTokens us = .ok out ∧
        out.map Token.meaning = [(.notRelation .subset, none)]) ∧
      filterTokens (ts.map (Token.moved f)) =
        .ok [⟨.notRelation .subset, none, ⟨none, ⟨1, 1⟩, ⟨1, 5⟩⟩⟩] := by
  intro ts us f
  have hmeaning : ts.map Token.meaning = us.map Token.meaning := rfl
  have hf : Span.PreservesMerge f := fun _ _ => rfl
  have hts : filterTokens ts = .ok [⟨.notRelation .subset, none,
      ⟨some "a", ⟨1, 1⟩, ⟨1, 5⟩⟩⟩] := by decide +kernel
  obtain ⟨out, out', hout, hus, hsame⟩ :=
    filterTokens_regardless_of_place.1 ts us hmeaning
  obtain rfl := Except.ok.inj (hts.symm.trans hout)
  obtain ⟨out, hout, hmoved⟩ := filterTokens_regardless_of_place.2 f hf ts
  obtain rfl := Except.ok.inj (hts.symm.trans hout)
  exact ⟨hmeaning, hf, hts, ⟨out', hus, hsame.symm⟩, hmoved⟩

end AlloyLexical

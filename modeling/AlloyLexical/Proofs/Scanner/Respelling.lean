import AlloyLexical.Proofs.Scanner.Passage

/-!
# Scanning what was spelled

Tokens that are spelled one after the other, with single blanks between them,
are scanned as they were, but for their spans. The blanks keep the spellings
apart: each spelling is cut off as its token whatever comes behind the blank
(`Token.cut_spell`), and the scanner passes over the blank
(`Scanner.scan_spelling`). So what is spelled yields its tokens
(`Scanner.exists_yields_spelled`).

A scanner in turn passes no token that cannot be spelled
(`Scanner.Passes.spellable`). Together, the tokens of any text can be spelled
and scanned again (`tokenize_spelling`).
-/

namespace AlloyLexical

namespace Token

/-- How a token is spelled. -/
def spelling (t : Token) : String := spell t.kind t.payload

end Token

namespace Scanner

open Lexeme Token

variable {s : Scanner}

/-! ## Scanning a spelling -/

theorem scan_of_cutsOff {kind : TokenKind} {payload : Option Payload} {w rest : List Char}
    (h : CutsOff kind payload w rest) (hs : s.text = w ++ rest) :
    ∃ u s', s.scan = (.ok u, s') ∧ u.meaning = (kind, payload) ∧ s'.text = rest := by
  obtain ⟨c, cs, hcs, hcut⟩ := h
  refine ⟨_, _, scan_token (hs.trans hcs) (by rw [hcut]), rfl, ?_⟩
  rw [past, hcut]

/-- A token is scanned as it was spelled, also behind a blank. -/
theorem scan_spelling {t : Token} {rest : List Char} (ht : Spellable t.kind t.payload)
    (hrest : SetsApart rest)
    (hs : s.text = t.spelling.toList ++ rest ∨ s.text = ' ' :: (t.spelling.toList ++ rest)) :
    ∃ u s', s.scan = (.ok u, s') ∧ u.meaning = t.meaning ∧ s'.text = rest := by
  rcases hs with hs | hs
  · exact scan_of_cutsOff (cut_spell ht hrest) hs
  · rw [scan_layout hs rfl]
    exact scan_of_cutsOff (cut_spell ht hrest) rfl

/-- The spellings of tokens, each behind a blank. -/
def spelled (ts : List Token) : List Char := ts.flatMap fun t => ' ' :: t.spelling.toList

theorem setsApart_spelled (ts : List Token) : SetsApart (spelled ts) := by
  rcases ts with _ | ⟨t, ts⟩
  · exact nofun
  · rintro _ ⟨⟩
    rfl

/-- Spelled tokens are yielded as they were, whether or not there is a blank in
    front of the first one. -/
theorem exists_yields_spelled {ts : List Token} (hts : ∀ t ∈ ts, Spellable t.kind t.payload)
    (hs : s.text = (spelled ts).tail ∨ s.text = spelled ts) :
    ∃ us z s', source.Yields s us (.ok z) s' ∧ us.map meaning = ts.map meaning := by
  induction ts generalizing s with
  | nil => exact ⟨[], _, s, .done (scan_nil (hs.elim id id)) rfl, rfl⟩
  | cons t ts ih =>
    rw [List.forall_mem_cons] at hts
    obtain ⟨u, s', hscan, hu, hs'⟩ := scan_spelling hts.1 (setsApart_spelled ts) hs
    obtain ⟨us, z, s'', hus, hmeaning⟩ := ih hts.2 (.inr hs')
    have hkind : u.kind = t.kind := congrArg Prod.fst hu
    refine ⟨u :: us, z, s'', .next hscan (hkind ▸ hts.1.ne_eof) hus, ?_⟩
    rw [List.map_cons, List.map_cons, hu, hmeaning]

theorem toList_intercalate_spelling (ts : List Token) :
    (" ".intercalate (ts.map spelling)).toList = (spelled ts).tail := by
  rw [String.toList_intercalate]
  rcases ts with _ | ⟨t, ts⟩
  · rfl
  induction ts generalizing t with
  | nil => exact List.intercalate_singleton.trans (List.append_nil _).symm
  | cons u ts ih =>
    rw [List.map_cons, List.map_cons, List.map_cons, List.map_cons, List.intercalate_cons_cons,
      ← List.map_cons, ← List.map_cons, ih u, List.append_assoc]
    rfl

/-! ## The byte order mark -/

theorem cut_mark (cs : List Char) :
    (cut '\uFEFF' cs).lexeme = .fault (.unexpectedCharacter '\uFEFF') := rfl

/-- No token is spelled with a byte order mark in front. -/
theorem ne_mark_of_spelled {ts : List Token} (hts : ∀ t ∈ ts, Spellable t.kind t.payload) :
    ∀ c ∈ (spelled ts).tail.head?, c ≠ '\uFEFF' := by
  rcases ts with _ | ⟨t, ts⟩
  · exact nofun
  rw [List.forall_mem_cons] at hts
  obtain ⟨c, cs, hcs, hcut⟩ := cut_spell hts.1 (setsApart_spelled ts)
  have htail : (spelled (t :: ts)).tail = c :: cs := hcs
  rw [htail]
  -- A byte order mark begins no token, and the spelling is cut off as one.
  rintro _ ⟨⟩ rfl
  have hmark := cut_mark cs
  rw [hcut] at hmark
  cases hmark

/-! ## Tokens that are scanned -/

/-- What the scanner passes can be spelled. -/
theorem Passes.spellable {s' : Scanner} {ts : List Token} (h : s.Passes ts s') :
    ∀ t ∈ ts, Spellable t.kind t.payload := by
  induction h with
  | refl => exact List.forall_mem_nil _
  | layout _ _ _ ih => exact ih
  | token _ hlexeme _ ih => exact List.forall_mem_cons.2 ⟨spellable_of_cut hlexeme, ih⟩

end Scanner

open Token Scanner

theorem tokenize_of_spellable {ts : List Token} (hts : ∀ t ∈ ts, Spellable t.kind t.payload) :
    ∃ us, tokenize (" ".intercalate (ts.map spelling)) = .ok us ∧
      us.map meaning = ts.map meaning := by
  have htext := toList_intercalate_spelling ts
  have hmark := ne_mark_of_spelled hts
  rw [← htext] at hmark
  -- The scanner skips nothing at the head of the text.
  obtain ⟨us, z, s', hus, hmeaning⟩ :=
    exists_yields_spelled hts (.inl ((text_ofText hmark none 0).trans htext))
  exact ⟨us, hus.collect_eq, hmeaning⟩

theorem spellable_of_tokenize {text : String} {ts : List Token} (h : tokenize text = .ok ts) :
    ∀ t ∈ ts, Spellable t.kind t.payload := by
  obtain ⟨z, s', hts⟩ := tokenize_eq_ok_iff_yields.1 h
  obtain ⟨s, hpasses, -⟩ := exists_passes hts
  exact hpasses.spellable

/-- Spelled tokens are scanned as they were, and all tokens of a text can be
    spelled. -/
theorem tokenize_spelling :
    (∀ ts : List Token, (∀ t ∈ ts, Spellable t.kind t.payload) →
      ∃ us, tokenize (" ".intercalate (ts.map spelling)) = .ok us ∧
        us.map meaning = ts.map meaning) ∧
    ∀ (text : String) (ts : List Token), tokenize text = .ok ts →
      (∀ t ∈ ts, Spellable t.kind t.payload) ∧
        ∃ us, tokenize (" ".intercalate (ts.map spelling)) = .ok us ∧
          us.map meaning = ts.map meaning := by
  refine ⟨fun ts hts => tokenize_of_spellable hts, fun text ts h => ?_⟩
  have hts := spellable_of_tokenize h
  exact ⟨hts, tokenize_of_spellable hts⟩

/-- A symbol, a name with a reserved word in it, the greatest number and a text
    of characters that are escaped. -/
theorem tokenize_spelling_of_each_sort :
    let here : Span := .point none ⟨1, 1⟩
    let ts : List Token := [⟨.symbol .iff, none, here⟩, ⟨.ident, some (.label "a/some"), here⟩,
      ⟨.number, some (.number 9223372036854775807), here⟩,
      ⟨.str, some (.text "\\\"\n"), here⟩]
    (∀ t ∈ ts, Spellable t.kind t.payload) ∧
      ∃ us, tokenize (" ".intercalate (ts.map spelling)) = .ok us ∧
        us.map meaning = ts.map meaning ∧ ∀ t ∈ us, Spellable t.kind t.payload := by
  intro here ts
  have hname : Word.IsName "a/some" := ⟨['a'], [['s', 'o', 'm', 'e']], by decide⟩
  have hts : ∀ t ∈ ts, Spellable t.kind t.payload := by
    simp only [ts, List.forall_mem_cons]
    exact ⟨.plain rfl, .name hname, .number (by decide), .text _, List.forall_mem_nil _⟩
  obtain ⟨us, hus, hmeaning⟩ := tokenize_spelling.1 ts hts
  exact ⟨hts, us, hus, hmeaning, (tokenize_spelling.2 _ us hus).1⟩

end AlloyLexical

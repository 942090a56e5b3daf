import AlloyLexical.Proofs.Scanner.Respelling
import AlloyLexical.Proofs.Scanner.Segments

/-!
# Other layout

Layout only separates tokens. Put other layout around the segments of a text and
the same tokens are scanned, but for their spans (`tokenize_relaid`).

The layout has to be complete, so that it does not take in what is behind it:
comments are closed, those to the end of the line by a line feed (`IsLayout`). And
it has to set the segments apart from what comes behind them: there is layout
between any two of them, and it begins with a blank (`KeepsApart`). A comment right
behind a segment would not do, as a slash before `//` opens a comment too soon.

Layout is passed whatever is behind it (`IsLayout.exists_passes`), and a segment is
passed as it was before, because its token is written in the same way where a blank
follows (`Lexeme.IsWritten.append`).
-/

namespace AlloyLexical

open Lexeme

/-! ## Layout -/

/-- Blanks and complete comments. -/
inductive IsLayout : List Char → Prop
  | nil : IsLayout []
  | blank {c : Char} {w : List Char} : isBlank c → IsLayout w → IsLayout (c :: w)
  | lineComment {c : Char} {body w : List Char} : c = '/' ∨ c = '-' → (∀ d ∈ body, d ≠ '\n') →
    IsLayout w → IsLayout (c :: c :: (body ++ '\n' :: w))
  | blockComment {body w : List Char} : ¬['*', '/'] <:+: body ++ ['*'] → IsLayout w →
    IsLayout ('/' :: '*' :: (body ++ '*' :: '/' :: w))

/-- Layout to be put behind each of some segments. It begins with blanks, and only
    behind the last segment there may be none. -/
structure KeepsApart (gaps : List String) : Prop where
  isLayout : ∀ gap ∈ gaps, IsLayout gap.toList
  startsBlank : ∀ gap ∈ gaps, StartsBlank gap.toList
  ne_empty : ∀ gap ∈ gaps.dropLast, gap ≠ ""

/-- The text of some segments with other layout, in front of them and behind each
    of them. -/
def Segment.relaid (first : String) (gs : List Segment) (gaps : List String) : String :=
  first ++ String.join (List.zipWith (fun g gap => g.text ++ gap) gs gaps)

namespace KeepsApart

variable {gap : String} {gaps : List String}

theorem tail (h : KeepsApart (gap :: gaps)) : KeepsApart gaps where
  isLayout := (List.forall_mem_cons.1 h.isLayout).2
  startsBlank := (List.forall_mem_cons.1 h.startsBlank).2
  ne_empty := by
    rcases gaps with _ | ⟨gap', gaps⟩
    · exact List.forall_mem_nil _
    · exact (List.forall_mem_cons.1 h.ne_empty).2

/-- Behind a segment there is a blank, or the end of the text. -/
theorem startsBlank_append (h : KeepsApart (gap :: gaps)) {rest : List Char}
    (hrest : gaps = [] → rest = []) : StartsBlank (gap.toList ++ rest) := by
  have hgap := h.startsBlank gap List.mem_cons_self
  rcases gaps with _ | ⟨gap', gaps⟩
  · rwa [hrest rfl, List.append_nil]
  · have hne : gap.toList ≠ [] := by
      rw [Ne, String.toList_eq_nil_iff]
      exact h.ne_empty gap List.mem_cons_self
    rwa [StartsBlank, List.head?_append_of_ne_nil _ hne]

end KeepsApart

/-! ## Passing layout and tokens -/

namespace Scanner

variable {s s' : Scanner} {w rest : List Char}

theorem exists_passes_of_isLayout {l : Lexeme} (hlayout : l.isLayout) (hw : l.IsWritten w rest)
    (hs : s.text = w ++ rest) : ∃ s', s.Passes [] s' ∧ s'.text = rest := by
  obtain ⟨c, cs, hcs, hcut⟩ := cut_of_isWritten hw
  refine ⟨_, .layout (hs.trans hcs) (by rwa [hcut]) (.refl _), ?_⟩
  rw [past, hcut]

theorem exists_passes_of_token {kind : TokenKind} {payload : Option Payload}
    (hw : (Lexeme.token kind payload).IsWritten w rest) (hs : s.text = w ++ rest) :
    ∃ t s', s.Passes [t] s' ∧ t.meaning = (kind, payload) ∧ s'.text = rest :=
  ⟨_, _, passes_of_isWritten hw hs, rfl, rfl⟩

/-- Nothing is passed behind a byte order mark. -/
theorem Passes.ne_mark {ts : List Token} (h : s.Passes ts s') (hend : s'.text = []) :
    ∀ c ∈ s.text.head?, c ≠ '\uFEFF' := by
  cases h with
  | refl =>
    rw [hend]
    exact nofun
  | layout hs hlayout =>
    rw [hs]
    rintro _ ⟨⟩ rfl
    cases hlayout
  | token hs hlexeme =>
    rw [hs]
    rintro _ ⟨⟩ rfl
    cases hlexeme

end Scanner

/-- Layout is passed, whatever is behind it. -/
theorem IsLayout.exists_passes {w rest : List Char} (h : IsLayout w) {s : Scanner}
    (hs : s.text = w ++ rest) : ∃ s', s.Passes [] s' ∧ s'.text = rest := by
  -- One lexeme after the other; the line feed behind a comment is another one.
  induction h generalizing s with
  | nil => exact ⟨s, .refl s, hs⟩
  | blank hc _ ih =>
    obtain ⟨s₁, hs₁, htext⟩ := Scanner.exists_passes_of_isLayout rfl (.blank hc) hs
    obtain ⟨s₂, hs₂, hrest⟩ := ih htext
    exact ⟨s₂, hs₁.trans hs₂, hrest⟩
  | @lineComment c body w hc hbody _ ih =>
    have hcomment : s.text = c :: c :: body ++ ('\n' :: (w ++ rest)) := by
      rw [hs]
      simp
    have hline : ∀ d ∈ ('\n' :: (w ++ rest)).head?, d = '\n' := by
      rintro _ ⟨⟩
      rfl
    obtain ⟨s₁, hs₁, htext⟩ :=
      Scanner.exists_passes_of_isLayout rfl (.lineComment hc hbody hline) hcomment
    obtain ⟨s₂, hs₂, htext⟩ := Scanner.exists_passes_of_isLayout rfl (.blank rfl) htext
    obtain ⟨s₃, hs₃, hrest⟩ := ih htext
    exact ⟨s₃, hs₁.trans (hs₂.trans hs₃), hrest⟩
  | @blockComment body w hbody _ ih =>
    have hcomment : s.text = '/' :: '*' :: (body ++ ['*', '/']) ++ (w ++ rest) := by
      rw [hs]
      simp
    obtain ⟨s₁, hs₁, htext⟩ :=
      Scanner.exists_passes_of_isLayout rfl (.blockComment hbody) hcomment
    obtain ⟨s₂, hs₂, hrest⟩ := ih htext
    exact ⟨s₂, hs₁.trans hs₂, hrest⟩

/-! ## Segments with other layout -/

/-- In each segment its token is written, also where the text ends with it. -/
theorem Segmented.isWritten {file : Option String} {b : String.Pos.Raw} {p : Position}
    {cs : List Char} {gs : List Segment} (h : Segmented file b p cs gs) :
    ∀ g ∈ gs, (Lexeme.token g.token.kind g.token.payload).IsWritten g.text.toList [] := by
  intro g hg
  obtain ⟨init, rest, -, -, hw⟩ := h.isWrittenIn g hg
  exact hw.of_append

/-- Segments that are kept apart are passed as the tokens that are written in
    them. -/
theorem Scanner.exists_passes_of_keepsApart {gs : List Segment} {gaps : List String}
    (hgs : ∀ g ∈ gs, (Lexeme.token g.token.kind g.token.payload).IsWritten g.text.toList [])
    (hlength : gaps.length = gs.length) (hgaps : KeepsApart gaps) {s : Scanner}
    (hs : s.text = (Segment.relaid "" gs gaps).toList) :
    ∃ us s', s.Passes us s' ∧ s'.text = [] ∧
      us.map Token.meaning = gs.map fun g => g.token.meaning := by
  induction gs generalizing gaps s with
  | nil => exact ⟨[], s, .refl s, hs, rfl⟩
  | cons g gs ih =>
    obtain ⟨gap, gaps, rfl⟩ := List.exists_cons_of_length_eq_add_one hlength
    have hlength' : gaps.length = gs.length := Nat.succ.inj hlength
    rw [List.forall_mem_cons] at hgs
    have htext : s.text =
        g.text.toList ++ (gap.toList ++ (Segment.relaid "" gs gaps).toList) := by
      rw [hs, Segment.relaid, Segment.relaid]
      simp
    have hblank : StartsBlank (gap.toList ++ (Segment.relaid "" gs gaps).toList) := by
      refine hgaps.startsBlank_append fun hnil => ?_
      rw [hnil, Segment.relaid, List.zipWith_nil_right]
      rfl
    obtain ⟨u, s₁, hs₁, hu, htext⟩ := exists_passes_of_token (hgs.1.append hblank nofun) htext
    obtain ⟨s₂, hs₂, htext⟩ := (hgaps.isLayout gap List.mem_cons_self).exists_passes htext
    obtain ⟨us, s₃, hs₃, hend, hus⟩ := ih hgs.2 hlength' hgaps.tail htext
    refine ⟨u :: us, s₃, hs₁.trans (hs₂.trans hs₃), hend, ?_⟩
    rw [List.map_cons, List.map_cons, hu, hus]
    rfl

/-- The text of segments with other layout around them is scanned as the tokens
    that are written in them, but for their spans. -/
theorem tokenize_of_keepsApart {gs : List Segment} {first : String} {gaps : List String}
    (hgs : ∀ g ∈ gs, (Lexeme.token g.token.kind g.token.payload).IsWritten g.text.toList [])
    (hlayout : IsLayout first.toList) (hlength : gaps.length = gs.length)
    (hgaps : KeepsApart gaps) :
    ∃ us, tokenize (Segment.relaid first gs gaps) = .ok us ∧
      us.map Token.meaning = gs.map fun g => g.token.meaning := by
  have hpasses {s : Scanner} (hs : s.text = (Segment.relaid first gs gaps).toList) :
      ∃ us s', s.Passes us s' ∧ s'.text = [] ∧
        us.map Token.meaning = gs.map fun g => g.token.meaning := by
    have htext : s.text = first.toList ++ (Segment.relaid "" gs gaps).toList := by
      rw [hs, Segment.relaid, Segment.relaid]
      simp
    obtain ⟨s₁, hs₁, hrest⟩ := hlayout.exists_passes htext
    obtain ⟨us, s₂, hs₂, hend, hus⟩ :=
      Scanner.exists_passes_of_keepsApart hgs hlength hgaps hrest
    exact ⟨us, s₂, hs₁.trans hs₂, hend, hus⟩
  -- What is passed up to its end begins with no byte order mark that would be skipped.
  obtain ⟨_, _, hfirst, hend, -⟩ :=
    hpasses (s := ⟨(Segment.relaid first gs gaps).toList, ⟨1, 1⟩, none⟩) rfl
  obtain ⟨us, s', hus, hend, hmeaning⟩ :=
    hpasses (Scanner.text_ofText (hfirst.ne_mark hend) none 0)
  exact ⟨us, (hus.yields_of_rests (.ending hend)).collect_eq, hmeaning⟩

/-- A text without faults is made of segments, with layout around them. With any
    other layout that keeps them apart, they are scanned as the same tokens, but
    for their spans. -/
theorem tokenize_relaid {text : String} {ts : List Token} (h : tokenize text = .ok ts) :
    ∃ gs, Segmentation text gs ∧ gs.map Segment.token = ts ∧
      ∀ (first : String) (gaps : List String), IsLayout first.toList →
        gaps.length = gs.length → KeepsApart gaps →
        ∃ us, tokenize (Segment.relaid first gs gaps) = .ok us ∧
          us.map Token.meaning = ts.map Token.meaning := by
  obtain ⟨mark, body, gs, rfl, hmark, hgs, rfl⟩ := exists_segmented h
  refine ⟨gs, hgs.segmentation hmark, rfl, fun first gaps hfirst hlength hgaps => ?_⟩
  rw [List.map_map]
  exact tokenize_of_keepsApart hgs.isWritten hfirst hlength hgaps

/-- A name, a dot and a name with no layout at all, then with a comment in front and
    layout of each sort behind the first two of them. -/
theorem tokenize_relaid_of_each_sort :
    let ts : List Token := [⟨.ident, some (.label "a"), .point none ⟨1, 1⟩⟩,
      ⟨.symbol .dot, none, .point none ⟨1, 2⟩⟩,
      ⟨.ident, some (.label "b"), .point none ⟨1, 3⟩⟩]
    let gaps := [" /*.*/", "\t--b\n", ""]
    tokenize "a.b" = .ok ts ∧ IsLayout "//a\n".toList ∧ KeepsApart gaps ∧
      ∃ gs us, Segmentation "a.b" gs ∧ gs.map Segment.token = ts ∧
        tokenize (Segment.relaid "//a\n" gs gaps) = .ok us ∧
        us.map Token.meaning = ts.map Token.meaning := by
  intro ts gaps
  have hts : tokenize "a.b" = .ok ts := by decide +kernel
  have hfirst : IsLayout "//a\n".toList :=
    @IsLayout.lineComment '/' ['a'] [] (.inl rfl) (List.forall_mem_singleton.2 (by decide)) .nil
  have hblock : IsLayout " /*.*/".toList :=
    .blank rfl (@IsLayout.blockComment ['.'] [] (by decide) .nil)
  have hline : IsLayout "\t--b\n".toList :=
    .blank rfl
      (@IsLayout.lineComment '-' ['b'] [] (.inr rfl) (List.forall_mem_singleton.2 (by decide)) .nil)
  have hblank : ∀ gap ∈ gaps, gap.toList.head?.all isBlank := by decide
  have hgaps : KeepsApart gaps :=
    ⟨by simpa [gaps] using ⟨hblock, hline, .nil⟩,
      fun gap hgap => (Option.all_eq_true _ _).1 (hblank gap hgap), by decide⟩
  obtain ⟨gs, hgs, hmap, hrelaid⟩ := tokenize_relaid hts
  have hlength : gaps.length = gs.length := by
    rw [← List.length_map Segment.token, hmap]
    rfl
  obtain ⟨us, hus, hmeaning⟩ := hrelaid _ gaps hfirst hlength hgaps
  exact ⟨hts, hfirst, hgaps, gs, us, hgs, hmap, hus, hmeaning⟩

end AlloyLexical

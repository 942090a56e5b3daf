import AlloyLexical.Proofs.Layer.Runs
import AlloyLexical.Proofs.Scanner.Passage

/-!
# Texts in segments

A text without faults is made of *segments*, in each of which a token is written,
and of layout. Nothing is lost in tokens: with the segments that they were
written in, and the layout around them, they make up the text
(`tokenize_segmentation`).

A segment begins at some byte of the text and the scanner counts lines and
columns, and both are told from what stands before the segment (`Segmented`). So
segments are apart from each other as their bytes are (`Segmented.pairwise_apart`)
and their tokens are in order as they are read (`Segmented.inOrder`).

A token stops in the column before the one that the scanner has got to. That is
where its last character stands, because no token ends in a line feed
(`Lexeme.IsWritten.exists_last`).
-/

namespace AlloyLexical

/-! ## The last character of a token -/

theorem exists_last_of_not_mem {c : Char} {w : List Char} (hne : w ≠ []) (h : c ∉ w) :
    ∃ init last, w = init ++ [last] ∧ last ≠ c := by
  refine ⟨w.dropLast, w.getLast hne, (List.dropLast_append_getLast hne).symm, ?_⟩
  intro hlast
  exact h (hlast ▸ List.getLast_mem hne)

theorem Word.of_mem_joined {segments : List (List Char)} (h : ∀ v ∈ segments, IsSegment v) :
    ∀ c ∈ joined segments, isWordChar c ∨ c = '/' := by
  rcases segments with _ | ⟨w, segments⟩
  · exact nofun
  induction segments generalizing w with
  | nil =>
    rw [joined, List.intercalate_singleton]
    exact fun c hc => .inl ((h w List.mem_cons_self).isWordChar c hc)
  | cons v segments ih =>
    rw [List.forall_mem_cons] at h
    rw [joined_cons, List.forall_mem_append, List.forall_mem_cons]
    exact ⟨fun c hc => .inl (h.1.isWordChar c hc), .inr rfl, ih v h.2⟩

theorem Word.IsName.of_mem {label : String} (h : IsName label) :
    ∀ c ∈ label.toList, isWordChar c ∨ c = '/' := by
  obtain ⟨w, segments, hlabel, hsegments, -⟩ := h
  rw [hlabel]
  exact of_mem_joined hsegments

theorem Word.IsName.line_not_mem {label : String} (h : IsName label) :
    label.toList ≠ [] ∧ '\n' ∉ label.toList := by
  constructor
  · obtain ⟨w, segments, hlabel, hsegments, -⟩ := h
    intro hnil
    have halpha := (List.forall_mem_cons.1 hsegments).1.startsWithLetter segments []
    rw [← hlabel, hnil] at halpha
    cases halpha
  · intro hmem
    rcases h.of_mem '\n' hmem with hword | hslash
    · exact absurd hword (by decide)
    · exact absurd hslash (by decide)

/-- A token is written up to a character that is no line feed. -/
theorem Lexeme.IsWritten.exists_last {kind : TokenKind} {payload : Option Payload}
    {w rest : List Char} (h : IsWritten (.token kind payload) w rest) :
    ∃ init last, w = init ++ [last] ∧ last ≠ '\n' := by
  cases h with
  | word hmem _ =>
    have hwords : ∀ e ∈ Lexicon.words, e.1.toList ≠ [] ∧ '\n' ∉ e.1.toList := by decide
    exact exists_last_of_not_mem (hwords _ hmem).1 (hwords _ hmem).2
  | symbol hmem _ _ =>
    have hsymbols : ∀ e ∈ Lexicon.symbols, e.1.toList ≠ [] ∧ '\n' ∉ e.1.toList := by decide
    exact exists_last_of_not_mem (hsymbols _ hmem).1 (hsymbols _ hmem).2
  | name hlabel _ => exact exists_last_of_not_mem hlabel.line_not_mem.1 hlabel.line_not_mem.2
  | number hne hdigits _ _ =>
    refine exists_last_of_not_mem hne fun hmem => ?_
    exact absurd (hdigits '\n' hmem) (by decide)
  | @literal body _ _ _ => exact ⟨'"' :: body, '"', rfl, by decide⟩

/-! ## Segments -/

theorem rawEndPos_append (s t : String) : (s ++ t).rawEndPos = s.rawEndPos + t :=
  String.Pos.Raw.ext String.utf8ByteSize_append

/-- A token, the piece of a text in which it is written and the byte of the text
    at which this piece begins. -/
structure Segment where
  start : String.Pos.Raw
  text : String
  token : Token

namespace Segment

/-- The byte behind the segment. -/
def stop (g : Segment) : String.Pos.Raw := g.start + g.text

/-- The segment is found in a text: it is not empty, it begins and ends between
    characters, and it says what the text says there. -/
structure IsIn (g : Segment) (text : String) : Prop where
  start_isValid : g.start.IsValid text
  stop_isValid : g.stop.IsValid text
  start_lt_stop : g.start < g.stop
  slice : ∃ before behind, text = before ++ g.text ++ behind ∧ g.start = before.rawEndPos

/-- What is put between two texts is found there. -/
theorem isIn_append {g : Segment} {before : String} (hstart : g.start = before.rawEndPos)
    (hne : g.text ≠ "") (behind : String) : g.IsIn (before ++ g.text ++ behind) where
  start_isValid := by
    rw [String.Pos.Raw.isValid_iff_exists_append]
    exact ⟨before, g.text ++ behind, String.append_assoc, hstart⟩
  stop_isValid := by
    rw [String.Pos.Raw.isValid_iff_exists_append]
    exact ⟨before ++ g.text, behind, rfl, by rw [stop, hstart, rawEndPos_append]⟩
  start_lt_stop := by
    have hsize : g.text.utf8ByteSize ≠ 0 := fun h => hne (String.utf8ByteSize_eq_zero_iff.1 h)
    exact Nat.lt_add_of_pos_right (Nat.pos_of_ne_zero hsize)
  slice := ⟨before, behind, rfl, hstart⟩

/-- The token of the segment is written in a text that begins at the byte `b`, where the
    segment begins. -/
def IsWrittenIn (g : Segment) (b : String.Pos.Raw) (cs : List Char) : Prop :=
  ∃ init rest, cs = init ++ (g.text.toList ++ rest) ∧ g.start = b + String.ofList init ∧
    (Lexeme.token g.token.kind g.token.payload).IsWritten g.text.toList rest

theorem isWrittenIn_head {b : String.Pos.Raw} {kind : TokenKind} {payload : Option Payload}
    {w rest : List Char} (hw : (Lexeme.token kind payload).IsWritten w rest) (span : Span) :
    IsWrittenIn ⟨b, String.ofList w, ⟨kind, payload, span⟩⟩ b (w ++ rest) := by
  refine ⟨[], rest, ?_, ?_, ?_⟩
  · rw [String.toList_ofList, List.nil_append]
  · exact String.Pos.Raw.ext rfl
  · rwa [String.toList_ofList]

/-- With more of the text in front, the segment is found further on. -/
theorem IsWrittenIn.behind {g : Segment} {b : String.Pos.Raw} {w cs : List Char}
    (h : g.IsWrittenIn (b + String.ofList w) cs) : g.IsWrittenIn b (w ++ cs) := by
  obtain ⟨init, rest, rfl, hstart, hw⟩ := h
  refine ⟨w ++ init, rest, by rw [List.append_assoc], ?_, hw⟩
  rw [hstart, String.ofList_append]
  exact String.Pos.Raw.ext (by simp [Nat.add_assoc])

end Segment

/-- From the byte `b` and the position `p` on, a text of the file is made of layout
    and of the segments, one after the other. Each segment has the token that is
    written in it, from the position of its first character to that of its last
    one. -/
inductive Segmented (file : Option String) :
    String.Pos.Raw → Position → List Char → List Segment → Prop
  | ending {b : String.Pos.Raw} {p : Position} : Segmented file b p [] []
  | layout {b : String.Pos.Raw} {p : Position} {l : Lexeme} {w rest : List Char}
    {gs : List Segment} : l.isLayout → l.IsWritten w rest →
    Segmented file (b + String.ofList w) (p.past l.width w) rest gs →
    Segmented file b p (w ++ rest) gs
  | token {b : String.Pos.Raw} {p : Position} {kind : TokenKind} {payload : Option Payload}
    {w rest : List Char} {gs : List Segment} : (Lexeme.token kind payload).IsWritten w rest →
    Segmented file (b + String.ofList w) (p.past (fun _ => 1) w) rest gs →
    Segmented file b p (w ++ rest) (⟨b, String.ofList w,
      ⟨kind, payload, ⟨file, p, p.past (fun _ => 1) w.dropLast⟩⟩⟩ :: gs)

namespace Segmented

variable {file : Option String} {b : String.Pos.Raw} {p : Position} {cs : List Char}
  {gs : List Segment}

/-- No segment begins before the others are reached. -/
theorem ahead (h : Segmented file b p cs gs) :
    ∀ g ∈ gs, b ≤ g.start ∧ p ≤ g.token.span.start := by
  induction h with
  | ending => exact List.forall_mem_nil _
  | layout _ _ _ ih =>
    exact fun g hg => ⟨Nat.le_trans (Nat.le_add_right _ _) (ih g hg).1,
      le_trans (Position.le_past _ _ _) (ih g hg).2⟩
  | token _ _ ih =>
    refine List.forall_mem_cons.2 ⟨⟨Nat.le_refl _, le_refl _⟩, fun g hg => ?_⟩
    exact ⟨Nat.le_trans (Nat.le_add_right _ _) (ih g hg).1,
      le_trans (Position.le_past _ _ _) (ih g hg).2⟩

/-- Each segment ends before the next one begins, or there. -/
theorem pairwise_apart (h : Segmented file b p cs gs) :
    gs.Pairwise fun g g' => g.stop ≤ g'.start := by
  induction h with
  | ending => exact .nil
  | layout _ _ _ ih => exact ih
  | token _ hgs ih => exact .cons (fun g hg => (hgs.ahead g hg).1) ih

/-- All tokens are of the file, and none stops before it starts. -/
theorem spans (h : Segmented file b p cs gs) :
    ∀ g ∈ gs, g.token.span.file = file ∧ g.token.span.start ≤ g.token.span.stop := by
  induction h with
  | ending => exact List.forall_mem_nil _
  | layout _ _ _ ih => exact ih
  | token _ _ ih => exact List.forall_mem_cons.2 ⟨⟨rfl, Position.le_past _ _ _⟩, ih⟩

/-- Each token stops before the next one starts. -/
theorem pairwise_stop_lt (h : Segmented file b p cs gs) :
    gs.Pairwise fun g g' => g.token.span.stop < g'.token.span.start := by
  induction h with
  | ending => exact .nil
  | layout _ _ _ ih => exact ih
  | @token b p _ _ w _ gs hw hgs ih =>
    refine .cons (fun g hg => ?_) ih
    obtain ⟨init, last, rfl, -⟩ := hw.exists_last
    rw [List.dropLast_concat]
    exact lt_of_lt_of_le (Position.past_lt_past_append p init last) (hgs.ahead g hg).2

/-- The tokens of segments are in order. -/
theorem inOrder (h : Segmented file b p cs gs) : InOrder (gs.map Segment.token) where
  file := ⟨file, List.forall_mem_map.2 fun g hg => (h.spans g hg).1⟩
  forward := List.forall_mem_map.2 fun g hg => (h.spans g hg).2
  apart := (List.pairwise_map.2 h.pairwise_stop_lt).isChain

/-- The segments are found behind what stands before the text. -/
theorem isIn (h : Segmented file b p cs gs) {before : String} (hb : b = before.rawEndPos) :
    ∀ g ∈ gs, g.IsIn (before ++ String.ofList cs) := by
  induction h generalizing before with
  | ending => exact List.forall_mem_nil _
  | @layout b p l w rest gs _ _ _ ih =>
    rw [String.ofList_append, ← String.append_assoc]
    exact ih (by rw [hb, rawEndPos_append])
  | @token b p kind payload w rest gs hw _ ih =>
    rw [String.ofList_append, ← String.append_assoc]
    refine List.forall_mem_cons.2 ⟨Segment.isIn_append hb ?_ _, ih (by rw [hb, rawEndPos_append])⟩
    obtain ⟨init, last, rfl, -⟩ := hw.exists_last
    simp

/-- In each segment its token is written, with the rest of the text behind it. -/
theorem isWrittenIn (h : Segmented file b p cs gs) : ∀ g ∈ gs, g.IsWrittenIn b cs := by
  induction h with
  | ending => exact List.forall_mem_nil _
  | layout _ _ _ ih => exact fun g hg => (ih g hg).behind
  | token hw _ ih =>
    exact List.forall_mem_cons.2 ⟨Segment.isWrittenIn_head hw _, fun g hg => (ih g hg).behind⟩

end Segmented

/-! ## Scanning segments -/

/-- What is passed up to the end of a text are its segments. -/
theorem Scanner.Passes.exists_segmented {s s' : Scanner} {ts : List Token} (h : s.Passes ts s')
    (hend : s'.text = []) (hcolumn : 1 ≤ s.position.column) (b : String.Pos.Raw) :
    ∃ gs, Segmented s.file b s.position s.text gs ∧ gs.map Segment.token = ts := by
  induction h generalizing b with
  | refl s =>
    rw [hend]
    exact ⟨[], .ending, rfl⟩
  | @layout s s' c cs ts hs hlayout _ ih =>
    obtain ⟨gs, hgs, hts⟩ := ih hend (Position.one_le_column_past hcolumn _ _)
      (b + String.ofList (Lexeme.cut c cs).text)
    have hw := Lexeme.isWritten_cut (Lexeme.ne_fault_of_isLayout hlayout)
    have hgs' := Segmented.layout hlayout hw hgs
    rw [Cut.append_eq, ← hs] at hgs'
    exact ⟨gs, hgs', hts⟩
  | @token s s' c cs kind payload ts hs hlexeme _ ih =>
    obtain ⟨gs, hgs, hts⟩ := ih hend (Position.one_le_column_past hcolumn _ _)
      (b + String.ofList (Lexeme.cut c cs).text)
    have hw := @Lexeme.isWritten_cut c cs (by simp [hlexeme])
    have hposition : (s.past (Lexeme.cut c cs)).position =
        s.position.past (fun _ => 1) (Lexeme.cut c cs).text := by
      rw [past, hlexeme]
      rfl
    rw [hlexeme] at hw
    rw [hposition] at hgs
    have hgs' := Segmented.token hw hgs
    rw [Cut.append_eq, ← hs] at hgs'
    refine ⟨_, hgs', ?_⟩
    -- The scanner is behind the last character, and that it is no line feed says where it was.
    obtain ⟨init, last, hinit, hlast⟩ := hw.exists_last
    rw [List.map_cons, hts, spanTo, hposition, hinit, List.dropLast_concat,
      Position.back_past_append hcolumn init hlast]
    rfl

/-- The segments make up a text, with layout around them and behind a byte order
    mark if there is one. They are found in the text, each one behind the other,
    and their tokens are in order. -/
structure Segmentation (text : String) (gs : List Segment) : Prop where
  covers : ∃ mark body : String, text = mark ++ body ∧ (mark = "" ∨ mark = "\uFEFF") ∧
    Segmented none mark.rawEndPos ⟨1, 1⟩ body.toList gs
  found : ∀ g ∈ gs, g.IsIn text
  apart : gs.Pairwise fun g g' => g.stop ≤ g'.start
  inOrder : InOrder (gs.map Segment.token)

theorem Segmented.segmentation {mark body : String} {gs : List Segment}
    (hmark : mark = "" ∨ mark = "\uFEFF")
    (h : Segmented none mark.rawEndPos ⟨1, 1⟩ body.toList gs) :
    Segmentation (mark ++ body) gs where
  covers := ⟨mark, body, rfl, hmark, h⟩
  found := by
    have hfound := h.isIn rfl
    rwa [String.ofList_toList] at hfound
  apart := h.pairwise_apart
  inOrder := h.inOrder

/-- A text without faults is made of segments and of layout, behind its byte order
    mark. -/
theorem exists_segmented {text : String} {ts : List Token} (h : tokenize text = .ok ts) :
    ∃ mark body gs, text = mark ++ body ∧ (mark = "" ∨ mark = "\uFEFF") ∧
      Segmented none mark.rawEndPos ⟨1, 1⟩ body.toList gs ∧ gs.map Segment.token = ts := by
  obtain ⟨z, s', hts⟩ := tokenize_eq_ok_iff_yields.1 h
  obtain ⟨s, hpasses, hrests⟩ := Scanner.exists_passes hts
  obtain ⟨mark, body, rfl, hmark, hhead⟩ := Scanner.exists_mark text
  rw [hhead body List.prefix_rfl] at hpasses
  obtain ⟨gs, hgs, hmap⟩ :=
    hpasses.exists_segmented hrests.text_eq_nil (Nat.le_refl 1) mark.rawEndPos
  exact ⟨mark, body, gs, rfl, hmark, hgs, hmap⟩

/-- The tokens of a text are written in segments that make up the text, but for
    layout. -/
theorem tokenize_segmentation {text : String} {ts : List Token} (h : tokenize text = .ok ts) :
    ∃ gs, Segmentation text gs ∧ gs.map Segment.token = ts := by
  obtain ⟨mark, body, gs, rfl, hmark, hgs, hmap⟩ := exists_segmented h
  exact ⟨gs, hgs.segmentation hmark, hmap⟩

/-- A byte order mark, comments right behind a word and around a character of two
    bytes, a literal with a line feed in it, and a number. -/
theorem tokenize_segmentation_of_each_sort :
    let text := "\uFEFFa//b\nc/*\u00e9*/\"\\\n\" 12"
    let ts : List Token := [⟨.ident, some (.label "a"), .point none ⟨1, 1⟩⟩,
      ⟨.ident, some (.label "c"), .point none ⟨2, 1⟩⟩,
      ⟨.str, some (.text "\\\n"), ⟨none, ⟨2, 8⟩, ⟨3, 1⟩⟩⟩,
      ⟨.number, some (.number 12), ⟨none, ⟨3, 3⟩, ⟨3, 4⟩⟩⟩]
    tokenize text = .ok ts ∧ ∃ gs, Segmentation text gs ∧ gs.map Segment.token = ts := by
  intro text ts
  have h : tokenize text = .ok ts := by decide +kernel
  exact ⟨h, tokenize_segmentation h⟩

end AlloyLexical

import AlloyLexical.Proofs.Cursor.Fitting
import AlloyLexical.Proofs.Scanner.Counters

/-!
# The counters of a cursor

Whatever has been met on the way, the line and the column of a cursor say what it has
gone over (`Cursor.counters_after`). The line is told by the line feeds. The column is
told by what has come since the last of them, where

* a character that stands in a comment counts with all of its bytes,
* any other character counts once.

Behind a byte order mark, the bytes that the cursor has gone over are those of pieces of
the text (`Dissected`), each gone over byte by byte or character by character by a loop
of its own (`Cursor.Meets`).

Lines and columns are words. What they count is exact as long as it is a word
(`Counters.position_behind`), which is always so unless there are nearly as many lines
before the text as a word can count; else the counters go round.
-/

namespace AlloyLexical

namespace Position

/-- The position behind some characters is no further than their bytes. -/
theorem foldl_step_le (p : Position) (ms : List (Char × Bool)) :
    (ms.foldl step p).line ≤ p.line + String.utf8Len (ms.map Prod.fst) ∧
      (ms.foldl step p).column ≤ p.column + String.utf8Len (ms.map Prod.fst) := by
  induction ms generalizing p with
  | nil => exact ⟨Nat.le_refl _, Nat.le_refl _⟩
  | cons m ms ih =>
    have hwidth : (if m.2 then m.1.utf8Size else 1) ≤ m.1.utf8Size := by
      split
      · exact Nat.le_refl _
      · exact m.1.utf8Size_pos
    have hm := p.next_le hwidth
    have hms := ih (p.step m)
    rw [List.foldl_cons, List.map_cons, String.utf8Len_cons]
    rw [step] at hms ⊢
    omega

theorem behind_eq (precedingLines : Nat) (ps : List Piece) :
    behind precedingLines ps = (Piece.marked ps).foldl step ⟨1 + precedingLines, 1⟩ := by
  rw [foldl_step, Piece.map_fst_marked]
  rfl

end Position

namespace Counters

/-- The counters behind the pieces that a text begins with, if there are so many lines
    before the text. -/
def behind (precedingLines : UInt64) (ps : List Piece) : Counters where
  line := 1 + precedingLines + .ofNat ((Piece.written ps).count '\n')
  column := 1 + .ofNat (Position.columns (Position.sinceLine (Piece.marked ps)))

theorem ofPosition_behind (precedingLines : UInt64) (ps : List Piece) :
    ofPosition (.behind precedingLines.toNat ps) = behind precedingLines ps := by
  rw [ofPosition, Position.behind, behind, UInt64.ofNat_add, UInt64.ofNat_add, UInt64.ofNat_add,
    UInt64.ofNat_toNat]
  rfl

/-- Unless there are too many lines before the text, the counters say how many lines and
    columns there are. -/
theorem position_behind {precedingLines : UInt64} {body rest : List Char} {ps : List Piece}
    (h : precedingLines.toNat + String.utf8Len body + 1 < UInt64.size)
    (hps : Dissected body ps rest) :
    (behind precedingLines ps).position = .behind precedingLines.toNat ps := by
  have hlen : String.utf8Len (Piece.written ps) ≤ String.utf8Len body := by
    rw [hps.eq_append, String.utf8Len_append]
    exact Nat.le_add_right _ _
  have hle := Position.foldl_step_le ⟨1 + precedingLines.toNat, 1⟩ (Piece.marked ps)
  rw [← Position.behind_eq, Piece.map_fst_marked] at hle
  dsimp only at hle
  rw [← ofPosition_behind]
  exact position_ofPosition (by omega) (by omega)

end Counters

namespace Cursor

open Scanner (Begins)

variable {c : Cursor} {s : Scanner}

/-- A token that is handed out starts where its scanner has got to past layout. -/
theorem Reports.exists_getsPast {t : Token} (h : Reports (.ok t) s.scan.1) :
    ∃ layout s₁, s.GetsPast layout s₁ ∧ (∀ p ∈ layout, p.lexeme.isLayout) ∧
      t.span.start = (Counters.ofPosition s₁.position).position ∧ Begins t s₁.text := by
  rcases hscan : s.scan with ⟨a, s'⟩
  rw [hscan] at h
  cases h with
  | token hspan =>
    obtain ⟨layout, s₁, hpast, hlayout, hstart, hbegins⟩ := Scanner.exists_getsPast_of_scan hscan
    refine ⟨layout, s₁, hpast, hlayout, ?_, hbegins⟩
    rw [← hstart]
    exact hspan.start

/-- Where a cursor stands that has got past some pieces behind a byte order mark. -/
theorem Tracks.pos_eq {mark : List Char} {ps : List Piece} (h : c.Tracks s)
    (htext : c.text.toList = mark ++ (Piece.written ps ++ s.text)) :
    c.pos = (String.ofList (mark ++ Piece.written ps)).utf8ByteSize := by
  obtain ⟨before, hat⟩ := h.place
  rw [hat.text, ← List.append_assoc] at htext
  rw [hat.pos, List.append_cancel_right htext, length_encode, String.utf8ByteSize_ofList]

/-- The byte order mark of a text, if it has one, and the text that its scanner has
    behind it. -/
theorem exists_mark_body (text : String) (file : Option String) (precedingLines : Nat) :
    ∃ mark body, text.toList = mark ++ body ∧
      (mark = ['\uFEFF'] ∨ mark = [] ∧ body.head? ≠ some '\uFEFF') ∧
      (Scanner.ofText text file precedingLines).text = body := by
  rcases Scanner.toList_eq_text_ofText text file precedingLines with htext | ⟨hhead, htext⟩
  · exact ⟨['\uFEFF'], _, htext, .inl rfl, rfl⟩
  · exact ⟨[], _, htext, .inr ⟨rfl, by rwa [htext] at hhead⟩, rfl⟩

/-- However often a text is scanned, and whatever is found in it, the cursor has gone
    over pieces that the text begins with, behind a byte order mark if there is one, and
    its counters say where these end. A token starts where they say behind these pieces
    and further layout. If there is nothing but ASCII in the comments so far, this is the
    column that counts the characters of the line.

    The counters are words. They are the numbers of lines and columns, unless there are
    too many lines before the text. -/
theorem counters_after (text : String) (file : Option String) (precedingLines : UInt64) :
    let start := ofText text file precedingLines
    ∃ mark body, text.toList = mark ++ body ∧
      (mark = ['\uFEFF'] ∨ mark = [] ∧ body.head? ≠ some '\uFEFF') ∧
      (∀ n, ∃ c ps rest, start.after n = .ok c ∧ Dissected body ps rest ∧
        c.pos = (String.ofList (mark ++ Piece.written ps)).utf8ByteSize ∧
        c.counters = .behind precedingLines ps ∧
        ∀ t, start.answer n = .ok (.ok t) → ∃ layout rest', (∀ p ∈ layout, p.lexeme.isLayout) ∧
          Dissected body (ps ++ layout) rest' ∧ Begins t rest' ∧
          t.span.start = (Counters.behind precedingLines (ps ++ layout)).position ∧
          ((∀ p ∈ ps ++ layout, p.isComment → ∀ d ∈ p.text, d.val ≤ 127) →
            t.span.start.column = (1 + UInt64.ofNat
              ((Piece.written (ps ++ layout)).rtakeWhile (· ≠ '\n')).length).toNat)) ∧
      (precedingLines.toNat + text.utf8ByteSize + 1 < UInt64.size →
        ∀ ps rest, Dissected body ps rest →
          (Counters.behind precedingLines ps).position = .behind precedingLines.toNat ps) := by
  intro start
  obtain ⟨mark, _, htext, hmark, rfl⟩ := exists_mark_body text file precedingLines.toNat
  refine ⟨mark, _, htext, hmark, fun n => ?_, fun hfits ps rest hps => ?_⟩
  · obtain ⟨c, hafter, hc, hsame⟩ := (tracks_ofText text file precedingLines).exists_after n
    obtain ⟨a, c', hscan, ha, -⟩ := hc.exists_scan
    obtain ⟨ps, hps⟩ := Scanner.exists_getsPast_of_steps
      (Scanner.steps_after n (.ofText text file precedingLines.toNat))
    refine ⟨c, ps, _, hafter, hps.dissected, hc.pos_eq ?_, ?_, fun t ht => ?_⟩
    · rw [hsame, ← hps.dissected.eq_append]
      exact htext
    · rw [hc.counters, Scanner.position_of_getsPast hps, Counters.ofPosition_behind]
    · cases (answer_of_scan hafter hscan).symm.trans ht
      obtain ⟨layout, s₁, hpast, hlayout, hstart, hbegins⟩ := ha.exists_getsPast
      have hall := hps.trans hpast
      rw [Scanner.position_of_getsPast hall, Counters.ofPosition_behind] at hstart
      refine ⟨layout, s₁.text, hlayout, hall.dissected, hbegins, hstart, fun hascii => ?_⟩
      rw [hstart, Counters.behind, Position.columns_of_ascii hascii]
      rfl
  · have hlen : String.utf8Len (Scanner.ofText text file precedingLines.toNat).text ≤
        text.utf8ByteSize := by
      rw [← String.utf8Len_toList, htext, String.utf8Len_append]
      exact Nat.le_add_left _ _
    exact Counters.position_behind (by omega) hps

/-- The third token of a text with a byte order mark, a comment and a line feed in a
    literal, four lines below the head of its file. -/
theorem counters_after_of_each_sort :
    let start := ofText "\uFEFFa /*b*/ \"\\\n\" c" none 4
    let t : Token := ⟨.ident, some (.label "c"), .point none ⟨6, 3⟩⟩
    start.answer 2 = .ok (.ok t) ∧ ∃ body ps rest, start.text.toList = '\uFEFF' :: body ∧
      Dissected body ps rest ∧ Begins t rest ∧
      (∀ p ∈ ps, p.isComment → ∀ d ∈ p.text, d.val ≤ 127) ∧
      ⟨6, 3⟩ = (Counters.behind 4 ps).position ∧
      3 = (1 + UInt64.ofNat ((Piece.written ps).rtakeWhile (· ≠ '\n')).length).toNat := by
  intro start t
  have ht : start.answer 2 = .ok (.ok t) := by decide +kernel
  obtain ⟨mark, body, htext, hmark, hcounters, -⟩ :=
    counters_after "\uFEFFa /*b*/ \"\\\n\" c" none 4
  obtain ⟨-, ps, -, -, -, -, -, htoken⟩ := hcounters 2
  obtain ⟨layout, rest, -, hall, hbegins, hstart, hcolumn⟩ := htoken t ht
  -- There is nothing but ASCII in the whole text, behind the byte order mark.
  have hbody : start.text.toList = '\uFEFF' :: body := by
    rcases hmark with rfl | ⟨rfl, hhead⟩
    · exact htext
    · exact absurd (congrArg List.head? htext.symm) hhead
  have hascii : ∀ p ∈ ps ++ layout, p.isComment → ∀ d ∈ p.text, d.val ≤ 127 := by
    have htail : start.text.toList.tail.all (·.val ≤ 127) := by decide +kernel
    rw [hbody, List.tail_cons, hall.eq_append] at htail
    intro p hp _ d hd
    exact of_decide_eq_true (List.all_eq_true.1 htail d
      (List.mem_append_left rest (List.mem_flatMap.2 ⟨p, hp, hd⟩)))
  exact ⟨ht, body, ps ++ layout, rest, hbody, hall, hbegins, hascii, hstart, hcolumn hascii⟩

/-- Behind as many lines as a word can count, the lines are counted from zero. -/
example : (ofText "a" none (-1)).counters.line = 0 := rfl

end Cursor

end AlloyLexical

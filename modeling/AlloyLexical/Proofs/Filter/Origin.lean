import AlloyLexical.Proofs.Filter.Text
import AlloyLexical.Proofs.Layer.Placement

/-!
# Texts with an origin

Where a text comes from is told of its tokens and of its faults, and decides
nothing else: a filter on a text of some origin gives what it would give for the
text alone, in the place where the text stands (`Filter.collect_ofText`).

An origin *places* a span in its file, below the lines that precede the text
there (`Origin.place`). A scanner that starts at the origin stays there through
every scan: it hands out the same tokens, placed, and meets the same fault
(`Scanner.scan_placed`). As placing preserves merged spans, the layers of the
filter keep to that (`Stack.rewrite_moved`).
-/

namespace AlloyLexical

namespace Position

/-- The position a number of lines further down. -/
def below (p : Position) (lines : Nat) : Position := ⟨p.line + lines, p.column⟩

theorem next_below (p : Position) (lines : Nat) (c : Char) (width : Nat) :
    (p.below lines).next c width = (p.next c width).below lines := by
  rw [next, next, below]
  split
  · rw [below, Nat.add_right_comm]
  · rfl

theorem past_below (width : Char → Nat) (p : Position) (lines : Nat) (text : List Char) :
    (p.below lines).past width text = (p.past width text).below lines := by
  induction text generalizing p with
  | nil => rfl
  | cons c text ih => rw [past_cons, next_below, ih, past_cons]

theorem below_le_below (p q : Position) (lines : Nat) : p.below lines ≤ q.below lines ↔ p ≤ q := by
  simp only [le_def, below]
  omega

theorem min_below (p q : Position) (lines : Nat) :
    min (p.below lines) (q.below lines) = (min p q).below lines := by
  simp only [min_def, below_le_below]
  exact (apply_ite (below · lines) (p ≤ q) p q).symm

theorem max_below (p q : Position) (lines : Nat) :
    max (p.below lines) (q.below lines) = (max p q).below lines := by
  simp only [max_def, below_le_below]
  exact (apply_ite (below · lines) (p ≤ q) q p).symm

end Position

/-! ## Placing spans -/

namespace Origin

variable (o : Origin)

/-- Where a span of the text stands in the file the text comes from. -/
def place (a : Span) : Span where
  file := o.file
  start := a.start.below o.precedingLines
  stop := a.stop.below o.precedingLines

theorem place_preservesMerge : Span.PreservesMerge o.place := by
  intro a b
  have hfile : Option.merge Span.leastName o.file o.file = o.file := by
    cases o.file <;> simp
  simp only [Span.merge, place, hfile, Position.min_below, Position.max_below]

/-- An answer of a scanner in the place where the text stands. -/
def placeAnswer : Except ScanError Token → Except ScanError Token
  | .ok t => .ok (t.moved o.place)
  | .error e => .error { e with span := o.place e.span }

end Origin

/-! ## Scanning -/

namespace Scanner

/-- The scanner in the file its text comes from. -/
def placed (o : Origin) (s : Scanner) : Scanner :=
  ⟨s.text, s.position.below o.precedingLines, o.file⟩

variable (o : Origin) {s s' : Scanner}

theorem past_placed (cut : Cut) : (s.placed o).past cut = (s.past cut).placed o := by
  rw [past, placed, Position.past_below]
  rfl

theorem faultSpan_placed (fault : ScanFault) :
    (s.placed o).faultSpan (s'.placed o) fault = o.place (s.faultSpan s' fault) := by
  cases fault <;> rfl

/-- Placed scanners do the same as others. -/
theorem scan_placed {a : Except ScanError Token} (h : s.scan = (a, s')) :
    (s.placed o).scan = (o.placeAnswer a, s'.placed o) := by
  induction s using layout_induction with
  | ending s hs =>
    rw [scan_nil hs] at h
    obtain ⟨rfl, rfl⟩ := Prod.mk.inj h
    exact scan_nil hs
  | token s c cs kind payload hs hlexeme =>
    rw [scan_token hs hlexeme] at h
    obtain ⟨rfl, rfl⟩ := Prod.mk.inj h
    rw [scan_token (s := s.placed o) hs hlexeme, past_placed]
    rfl
  | fault s c cs fault hs hlexeme =>
    rw [scan_fault hs hlexeme] at h
    obtain ⟨rfl, rfl⟩ := Prod.mk.inj h
    rw [scan_fault (s := s.placed o) hs hlexeme, past_placed, faultSpan_placed]
    rfl
  | layout s c cs hs hlayout ih =>
    rw [scan_layout hs hlayout] at h
    rw [scan_layout (s := s.placed o) hs hlayout, past_placed, ih h]

theorem yields_placed {ts : List Token} {a : Except ScanError Token}
    (h : source.Yields s ts a s') :
    source.Yields (s.placed o) (ts.map (Token.moved o.place)) (o.placeAnswer a) (s'.placed o) := by
  induction h with
  | @done s s' a hscan ha =>
    refine .done (scan_placed o hscan) ?_
    rcases a with e | z
    · trivial
    · exact ha
  | next hscan ht _ ih => exact .next (scan_placed o hscan) ht ih

end Scanner

/-! ## Filtering -/

namespace ScanFault

/-- What is reported of a fault in the given line and column. -/
def report (fault : ScanFault) (line column : Nat) : String :=
  s!"IO error: {fault.message} at line {line}, column {column}"

end ScanFault

namespace Filter

theorem report_eq (e : ScanError) :
    "IO error: " ++ e.message = e.fault.report e.span.start.line e.span.start.column := by
  obtain ⟨fault, file, ⟨line, column⟩, stop⟩ := e
  show "IO error: " ++ (fault.message ++ " at " ++
      ("line " ++ toString line ++ ", column " ++ toString column)) =
    "IO error: " ++ fault.message ++ (" at " ++ "line ") ++ toString line ++ ", column " ++
      toString column
  simp only [String.append_assoc]

theorem collect_eq_report {s s' : Scanner} {ts : List Token} {e : ScanError}
    (h : Scanner.source.Yields s ts (.error e) s') :
    (source (Scanner.source.mapError Error.scan)).collect (Stack.fresh s layers) =
      .error (.fatal ⟨e.fault.report e.span.start.line e.span.start.column, some e.span⟩) := by
  rw [← report_eq]
  exact collect_eq_fatal h

/-- What a filter gives for a text of some origin is what it gives for the text
    alone, placed: tokens are moved to their file and their lines; a fault is
    reported with its span moved and its line counted in the file. The module a
    text is written for makes no difference. -/
theorem collect_ofText (text : String) (o : Origin) :
    (match filterText text with
      | .ok ts => (ofText text o).collect = .ok (ts.map (Token.moved o.place))
      | .error e => ∃ (fault : ScanFault) (span : Span),
        e = .fatal ⟨fault.report span.start.line span.start.column, some span⟩ ∧
        (ofText text o).collect = .error (.fatal
          ⟨fault.report (span.start.line + o.precedingLines) span.start.column,
            some (o.place span)⟩)) ∧
    ∀ moduleName, (ofText text { o with moduleName }).collect = (ofText text o).collect := by
  refine ⟨?_, fun _ => rfl⟩
  obtain ⟨ts, e | z, s, h⟩ := (Scanner.finishes (Scanner.ofText text none 0)).exists_yields
  · have halone : filterText text = _ := collect_eq_report h
    have hplaced : (ofText text o).collect = _ := collect_eq_report (Scanner.yields_placed o h)
    rw [halone]
    exact ⟨e.fault, e.span, rfl, hplaced⟩
  · have halone : filterText text = _ := collect_eq_rewrite h
    have hplaced : (ofText text o).collect = _ := collect_eq_rewrite (Scanner.yields_placed o h)
    rw [halone]
    exact hplaced.trans (congrArg _ (Stack.rewrite_moved o.place_preservesMerge layers ts))

end Filter

end AlloyLexical

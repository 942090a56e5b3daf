import AlloyLexical.Proofs.Lexeme.Units
import AlloyLexical.Proofs.Position
import AlloyLexical.Scanner

/-!
# Scanning literals

What a scanner makes of a double quote it stands at is told by the units behind the quote
(`Scanner.scan_literal`). If a quote is the first of them that ends a literal, the scanner
hands out a text, which spans from the one quote to the other. If it is a line feed, or if
there is none, the literal is at fault where it is opened, and the scanner stays at the line
feed or at the end of the text.

Characters count one column each in a literal, whatever they are, and only an escaped line
feed leads to the next line (`Position.past_inside`).
-/

namespace AlloyLexical

/-- The position behind an opening quote at `p` and some units behind it: every escaped
    line feed leads to the next line, and a column is counted for each character since
    then. -/
def Position.behindUnits (p : Position) (us : List (List Char)) : Position where
  line := p.line + us.count ['\\', '\n']
  column := if ['\\', '\n'] ∈ us then 1 + (us.flatten.rtakeWhile (· ≠ '\n')).length
    else p.column + 1 + us.flatten.length

open Quoted

theorem Position.past_inside (p : Position) (cs : List Char) :
    p.past (fun _ => 1) ('"' :: (inside cs).flatten) = p.behindUnits (inside cs) := by
  have hmem : '\n' ∈ (inside cs).flatten ↔ ['\\', '\n'] ∈ inside cs := by
    rw [← List.count_pos_iff, count_inside, List.count_pos_iff]
  have hnext : p.next '"' 1 = ⟨p.line, p.column + 1⟩ := rfl
  have hline := line_past (fun _ => 1) (p.next '"' 1) (inside cs).flatten
  have hcolumn := column_past (p.next '"' 1) (inside cs).flatten
  rw [hnext] at hline hcolumn
  rw [past_cons, behindUnits, hnext]
  generalize past _ _ _ = q at hline hcolumn ⊢
  obtain ⟨line, column⟩ := q
  rw [count_inside] at hline
  simp only [hmem] at hcolumn
  rw [show line = _ from hline, show column = _ from hcolumn]

namespace Scanner

/-- A literal is cut off a text as it is read. -/
theorem cut_quote (cs : List Char) : Lexeme.cut '"' cs = Lexeme.cutQuoted '"' cs := rfl

/-- A literal that is closed is handed out as a text. -/
theorem scan_closed (p : Position) (file : Option String) {cs : List Char}
    {later : List (List Char)} (h : behind cs = ['"'] :: later) :
    let q := p.behindUnits (inside cs)
    scan ⟨'"' :: cs, p, file⟩ =
      (.ok ⟨.str, some (.text (String.ofList ((inside cs).flatMap meaning))), ⟨file, p, q⟩⟩,
        ⟨later.flatten, ⟨q.line, q.column + 1⟩, file⟩) := by
  intro q
  have hcut : Lexeme.cut '"' cs =
      ⟨.token .str (some (.text (String.ofList ((inside cs).flatMap meaning)))),
        '"' :: ((inside cs).flatten ++ ['"']), later.flatten⟩ := by
    rw [cut_quote, Lexeme.cutQuoted, read_eq, h, List.head?_cons, if_pos rfl]
    rfl
  have hclosing : p.past (fun _ => 1) ('"' :: ((inside cs).flatten ++ ['"'])) =
      ⟨q.line, q.column + 1⟩ := by
    rw [← List.cons_append, Position.past_append, Position.past_inside]
    rfl
  -- Behind the opening quote there is a column to go back to.
  have hback : (p.past (fun _ => 1) ('"' :: ((inside cs).flatten ++ ['"']))).back = q := by
    rw [Position.past_cons, Position.back_past_append (Nat.le_add_left 1 p.column) _ (by decide)]
    exact p.past_inside cs
  rw [hclosing] at hback
  rw [scan_token rfl (congrArg Cut.lexeme hcut), spanTo, hcut, past]
  simp only [show Lexeme.width (.token _ _) = fun _ => 1 from rfl, hclosing, hback]

/-- A literal that is left open is a fault where it is opened. -/
theorem scan_open (p : Position) (file : Option String) (cs : List Char)
    (h : (behind cs).head? ≠ some ['"']) :
    scan ⟨'"' :: cs, p, file⟩ = (.error ⟨.unterminatedString, .point file p⟩,
      ⟨(behind cs).flatten, p.behindUnits (inside cs), file⟩) := by
  have hcut : Lexeme.cut '"' cs =
      ⟨.fault .unterminatedString, '"' :: (inside cs).flatten, (behind cs).flatten⟩ := by
    rw [cut_quote, Lexeme.cutQuoted, read_eq, if_neg h]
  rw [scan_fault rfl (congrArg Cut.lexeme hcut), hcut, past]
  simp only [show Lexeme.width (.fault .unterminatedString) = fun _ => 1 from rfl,
    Position.past_inside]
  rfl

theorem scan_line_feed (p : Position) (file : Option String) (cs : List Char) :
    scan ⟨'\n' :: cs, p, file⟩ = scan ⟨cs, ⟨p.line + 1, 1⟩, file⟩ := by
  have hcut : Lexeme.cut '\n' cs = ⟨.blank, ['\n'], cs⟩ := rfl
  rw [scan_layout rfl (congrArg (·.lexeme.isLayout) hcut), hcut]
  rfl

/-- A scanner that stands at a double quote goes through the units of the literal that is
    opened there. It hands out what they mean if the next unit is a quote, with a span from
    the one quote to the other. Otherwise it reports the opening quote, and goes on from a
    line feed that is the next unit, or from the end of the text. -/
theorem scan_literal (p : Position) (file : Option String) (cs : List Char) :
    let s : Scanner := ⟨'"' :: cs, p, file⟩
    let q := p.behindUnits (inside cs)
    (∃ later, behind cs = ['"'] :: later ∧
      s.scan = (.ok ⟨.str, some (.text (String.ofList ((inside cs).flatMap meaning))),
        ⟨file, p, q⟩⟩, ⟨later.flatten, ⟨q.line, q.column + 1⟩, file⟩)) ∨
    (∃ later, behind cs = ['\n'] :: later ∧
      let s' : Scanner := ⟨'\n' :: later.flatten, q, file⟩
      s.scan = (.error ⟨.unterminatedString, .point file p⟩, s') ∧
        s'.scan = scan ⟨later.flatten, ⟨q.line + 1, 1⟩, file⟩) ∨
    (behind cs = [] ∧
      let s' : Scanner := ⟨[], q, file⟩
      s.scan = (.error ⟨.unterminatedString, .point file p⟩, s') ∧
        s'.scan = (.ok (.eof (.point file q)), s')) := by
  intro s q
  rcases hbehind : behind cs with _ | ⟨u, later⟩
  · right; right
    have hopen : s.scan = _ := scan_open p file cs (by rw [hbehind]; decide)
    rw [hbehind] at hopen
    exact ⟨rfl, hopen, scan_nil rfl⟩
  rcases ends_of_behind hbehind with rfl | rfl
  · left
    exact ⟨later, rfl, scan_closed p file hbehind⟩
  · right; left
    have hopen : s.scan = _ := scan_open p file cs (by
      rw [hbehind, List.head?_cons]
      decide)
    rw [hbehind] at hopen
    exact ⟨later, rfl, hopen, scan_line_feed q file later.flatten⟩

/-- Three escapes, a backslash in front of a letter of two bytes and one in front of a line
    feed. -/
example :
    let p : Position := ⟨1, 1⟩
    let cs := "\\n\\\\\\\"\\é\\\n!\" x".toList
    inside cs =
      [['\\', 'n'], ['\\', '\\'], ['\\', '"'], ['\\', 'é'], ['\\', '\n'], ['!']] ∧
    behind cs = [['"'], [' '], ['x']] ∧ p.behindUnits (inside cs) = ⟨2, 2⟩ := by
  decide

end Scanner

end AlloyLexical

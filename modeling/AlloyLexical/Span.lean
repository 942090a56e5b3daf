import AlloyLexical.Position

/-!
# Spans

A *span* is a stretch of a text: the position of its first character, the
position of its last character, and the file the text belongs to, where it
belongs to one. Spans say where a token or an error is, and two of them are
combined by `Span.merge`:

* the merged span starts at the earlier start and stops at the later stop;
* it names a file as soon as one of the two does, and of two different files
  the smaller name, so that merging does not depend on the order.

Where a span may be missing, `Span.cover` merges what is there: the missing
span is neutral.
-/

namespace AlloyLexical

/-- A stretch of a text, both ends included. -/
structure Span where
  file : Option String
  start : Position
  stop : Position
deriving DecidableEq

namespace Span

/-- The span of one character. -/
def point (file : Option String) (p : Position) : Span := ⟨file, p, p⟩

/-- The smaller of two file names, by the order of their characters. -/
def leastName (a b : String) : String := if a ≤ b then a else b

/-- The least span that covers both. -/
def merge (a b : Span) : Span where
  file := Option.merge leastName a.file b.file
  start := min a.start b.start
  stop := max a.stop b.stop

@[simp] theorem leastName_self (a : String) : leastName a a = a := by simp [leastName]

@[simp] theorem merge_self (a : Span) : a.merge a = a := by
  obtain ⟨_ | file, start, stop⟩ := a <;>
    simp only [merge, Option.merge, leastName_self, Std.min_self, Std.max_self]

/-- The least span that covers those of the two that are there. -/
def cover (a b : Option Span) : Option Span := Option.merge merge a b

@[simp] theorem cover_none_left (a : Option Span) : cover none a = a := by cases a <;> rfl

@[simp] theorem cover_none_right (a : Option Span) : cover a none = a := by cases a <;> rfl

@[simp] theorem cover_some (a b : Span) : cover (some a) (some b) = some (a.merge b) := rfl

/-- Where a span starts, in words. -/
def text (a : Span) : String := s!"line {a.start.line}, column {a.start.column}"

end Span

end AlloyLexical

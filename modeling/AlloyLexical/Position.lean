/-!
# Positions

A *position* is a place in a text, counted in lines and columns from one.
Positions are ordered as they are read: first by line, then by column.

A text is walked character by character. A line feed leads to the first column
of the next line; every other character leads to the right, by as many columns
as it is wide. How wide a character is depends on where it stands, so the width
is an argument of `Position.past`, which walks over a whole piece of text.

* the reading order is linear (`Std.IsLinearOrder`), so that what the library
  says of linear orders holds of positions;
* `Position.past_append`: walking over two pieces is walking over the first and
  then over the second.
-/

namespace AlloyLexical

/-- A place in a text, by line and column. -/
structure Position where
  line : Nat
  column : Nat
deriving DecidableEq

namespace Position

/-! ## The reading order -/

instance : LE Position :=
  ⟨fun p q => p.line < q.line ∨ (p.line = q.line ∧ p.column ≤ q.column)⟩

instance : LT Position :=
  ⟨fun p q => p.line < q.line ∨ (p.line = q.line ∧ p.column < q.column)⟩

theorem le_def {p q : Position} :
    p ≤ q ↔ p.line < q.line ∨ (p.line = q.line ∧ p.column ≤ q.column) := Iff.rfl

theorem lt_def {p q : Position} :
    p < q ↔ p.line < q.line ∨ (p.line = q.line ∧ p.column < q.column) := Iff.rfl

instance (p q : Position) : Decidable (p ≤ q) := decidable_of_iff _ le_def.symm

instance (p q : Position) : Decidable (p < q) := decidable_of_iff _ lt_def.symm

instance : Std.IsLinearOrder Position where
  le_refl p := .inr ⟨rfl, Nat.le_refl _⟩
  le_trans p q r hpq hqr := by
    rw [le_def] at *
    omega
  le_antisymm := by
    rintro ⟨pl, pc⟩ ⟨ql, qc⟩ hpq hqp
    rw [le_def] at hpq hqp
    simp only [mk.injEq] at *
    omega
  le_total p q := by
    rw [le_def, le_def]
    omega

instance : Std.LawfulOrderLT Position where
  lt_iff p q := by
    rw [lt_def, le_def, le_def]
    omega

instance : Min Position := ⟨fun p q => if p ≤ q then p else q⟩

instance : Max Position := ⟨fun p q => if p ≤ q then q else p⟩

theorem min_def (p q : Position) : min p q = if p ≤ q then p else q := rfl

theorem max_def (p q : Position) : max p q = if p ≤ q then q else p := rfl

instance : Std.MinEqOr Position where
  min_eq_or p q := by
    rw [min_def]
    split
    · exact .inl rfl
    · exact .inr rfl

instance : Std.MaxEqOr Position where
  max_eq_or p q := by
    rw [max_def]
    split
    · exact .inr rfl
    · exact .inl rfl

/-! ## Walking over a text -/

/-- The position after a character of the given width. -/
def next (p : Position) (c : Char) (width : Nat) : Position :=
  if c = '\n' then ⟨p.line + 1, 1⟩ else ⟨p.line, p.column + width⟩

/-- The position after a piece of text whose characters are as wide as `width`
    says. -/
def past (width : Char → Nat) (p : Position) (text : List Char) : Position :=
  text.foldl (fun q c => q.next c (width c)) p

@[simp] theorem past_nil (width : Char → Nat) (p : Position) : p.past width [] = p := rfl

@[simp] theorem past_cons (width : Char → Nat) (p : Position) (c : Char) (text : List Char) :
    p.past width (c :: text) = (p.next c (width c)).past width text := rfl

@[simp] theorem past_append (width : Char → Nat) (p : Position) (s t : List Char) :
    p.past width (s ++ t) = (p.past width s).past width t := List.foldl_append

/-- The position of the last character walked over by someone now at `p`, if
    that character was one column wide and no line feed. There is no column
    before the first. -/
def back (p : Position) : Position := ⟨p.line, max (p.column - 1) 1⟩

end Position

end AlloyLexical

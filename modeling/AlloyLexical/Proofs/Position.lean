import AlloyLexical.Position
import Mathlib.Data.List.DropRight
import Mathlib.Order.Defs.LinearOrder

/-!
# Walks over texts

Where a walk over a text leads, in lines and columns. Every line feed leads to
the next line (`Position.line_past`), and no character leads back
(`Position.le_past`).

A walk in single columns gets ahead with each character
(`Position.past_lt_past_append`), and its column counts the characters since the last
line feed (`Position.column_past`). Going back from its end leads to the last character,
unless that is a line feed (`Position.back_past_append`).
-/

namespace AlloyLexical

instance : LinearOrder Position where
  le_refl := Std.le_refl
  le_trans _ _ _ := Std.le_trans
  le_antisymm _ _ := Std.le_antisymm
  le_total _ _ := Std.le_total
  lt_iff_le_not_ge := Std.LawfulOrderLT.lt_iff
  toDecidableLE := inferInstance
  toDecidableLT := inferInstance
  min_def := Position.min_def
  max_def := Position.max_def

namespace Position

/-- A line is passed with each line feed. -/
theorem line_past (width : Char → Nat) (p : Position) (text : List Char) :
    (p.past width text).line = p.line + text.count '\n' := by
  induction text generalizing p with
  | nil => rfl
  | cons c text ih =>
    rw [past_cons, ih, next, List.count_cons]
    by_cases hc : c = '\n'
    · simp only [hc, if_true, beq_self_eq_true]
      omega
    · simp [hc]

theorem one_le_column_past {p : Position} (hp : 1 ≤ p.column) (width : Char → Nat)
    (text : List Char) : 1 ≤ (p.past width text).column := by
  induction text generalizing p with
  | nil => exact hp
  | cons c text ih =>
    refine ih (p := p.next c (width c)) ?_
    rw [next]
    split
    · exact Nat.le_refl 1
    · exact Nat.le_add_right_of_le hp

theorem le_past (width : Char → Nat) (p : Position) (text : List Char) :
    p ≤ p.past width text := by
  induction text generalizing p with
  | nil => exact le_refl p
  | cons c text ih =>
    refine le_trans ?_ (ih (p.next c (width c)))
    rw [next, le_def]
    split
    · exact .inl (Nat.lt_succ_self p.line)
    · exact .inr ⟨rfl, Nat.le_add_right p.column (width c)⟩

/-! ## Single columns -/

/-- Within a line, a walk leads as many columns on as there are characters. -/
theorem past_of_not_mem (p : Position) {text : List Char} (h : '\n' ∉ text) :
    p.past (fun _ => 1) text = ⟨p.line, p.column + text.length⟩ := by
  induction text generalizing p with
  | nil => rfl
  | cons c text ih =>
    rw [List.mem_cons, not_or] at h
    rw [past_cons, next, if_neg (Ne.symm h.1), ih _ h.2, List.length_cons]
    exact congrArg (mk p.line) (Nat.add_right_comm p.column 1 text.length)

/-- A walk counts the characters that it has met since the last line feed, or all of
    them where there is none. -/
theorem column_past (p : Position) (text : List Char) :
    (p.past (fun _ => 1) text).column =
      if '\n' ∈ text then 1 + (text.rtakeWhile (· ≠ '\n')).length else p.column + text.length := by
  induction text using List.reverseRecOn with
  | nil => rfl
  | append_singleton text c ih =>
    have hsince : (text ++ [c]).rtakeWhile (· ≠ '\n') =
        if c ≠ '\n' then text.rtakeWhile (· ≠ '\n') ++ [c] else [] := by
      simp [List.rtakeWhile_concat]
    rw [past_append, past_cons, past_nil, next, hsince]
    by_cases hc : c = '\n'
    · simp [hc]
    · by_cases hmem : '\n' ∈ text
      · simp [hc, ih, hmem]
        omega
      · simp [hc, Ne.symm hc, ih, hmem]
        omega

/-- A walk in single columns gets ahead with its last character. -/
theorem past_lt_past_append (p : Position) (text : List Char) (c : Char) :
    p.past (fun _ => 1) text < p.past (fun _ => 1) (text ++ [c]) := by
  rw [past_append, past_cons, past_nil, next, lt_def]
  split
  · exact .inl (Nat.lt_succ_self _)
  · exact .inr ⟨rfl, Nat.lt_succ_self _⟩

/-- Behind a character that is no line feed, going back is undoing its step. -/
theorem back_past_append {p : Position} (hp : 1 ≤ p.column) (text : List Char) {c : Char}
    (hc : c ≠ '\n') : (p.past (fun _ => 1) (text ++ [c])).back = p.past (fun _ => 1) text := by
  have hcolumn := one_le_column_past hp (fun _ => 1) text
  rw [past_append, past_cons, past_nil, next, if_neg hc, back, Nat.add_sub_cancel,
    Nat.max_eq_left hcolumn]

end Position

end AlloyLexical

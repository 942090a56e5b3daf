import AlloyLexical.Lexeme.Quoted
import Mathlib.Data.List.TakeWhile

/-!
# Units of quoted texts

A text that follows an opening quote is read from left to right in units
(`Quoted.units`), each of which is a backslash with the character behind it or another
single character. So every backslash belongs to one unit only, however many of them there
are in a row, and only a quote or a line feed that is a unit of its own ends a literal
(`Quoted.ends`).

Reading a literal is reading the units in front of the first one that ends it, and putting
together what they mean (`Quoted.read_eq`). These units have a line feed in them only where
it is escaped (`Quoted.count_inside`).
-/

namespace AlloyLexical

namespace Quoted

/-- The units of a text. -/
def units : List Char → List (List Char)
  | '\\' :: c :: cs => ['\\', c] :: units cs
  | c :: cs => [c] :: units cs
  | [] => []

/-- What a unit means. -/
def meaning : List Char → List Char
  | ['\\', 'n'] => ['\n']
  | ['\\', '"'] => ['"']
  | ['\\', '\\'] => ['\\']
  | unit => unit

/-- Whether the unit is not part of a literal any more. -/
def ends (unit : List Char) : Bool := unit = ['"'] || unit = ['\n']

/-- The units of the literal at the head of a text. -/
def inside (cs : List Char) : List (List Char) := (units cs).takeWhile (!ends ·)

/-- The unit that ends the literal, if there is one, and all units behind it. -/
def behind (cs : List Char) : List (List Char) := (units cs).dropWhile (!ends ·)

theorem units_cons_of_ne {c : Char} (cs : List Char) (hc : c ≠ '\\') :
    units (c :: cs) = [c] :: units cs := by
  rw [units]
  rintro _ _ rfl
  exact absurd rfl hc

/-- Nothing of a text is lost in its units. -/
theorem flatten_units (cs : List Char) : (units cs).flatten = cs := by
  fun_induction units cs <;> simp_all

theorem ends_of_behind {u cs : List Char} {us : List (List Char)} (h : behind cs = u :: us) :
    u = ['"'] ∨ u = ['\n'] := by
  have hnot := List.head?_dropWhile_not (!ends ·) (units cs)
  rw [show (units cs).dropWhile (!ends ·) = u :: us from h] at hnot
  have hends : ends u := by simpa using hnot
  simpa [ends] using hends

/-! ## Reading -/

theorem meaning_escape (c : Char) : meaning ['\\', c] = escaped c := by
  rw [meaning.eq_def, escaped]
  split <;> simp_all

theorem meaning_single (c : Char) : meaning [c] = [c] := by
  rw [meaning.eq_def]
  split <;> simp_all

theorem inside_of_units {u cs cs' : List Char} (h : units cs = u :: units cs')
    (hu : ¬ends u) : inside cs = u :: inside cs' ∧ behind cs = behind cs' := by
  rw [inside, behind, h]
  exact ⟨List.takeWhile_cons_of_pos (by simpa using hu),
    List.dropWhile_cons_of_pos (by simpa using hu)⟩

theorem inside_of_ends {u cs : List Char} {us : List (List Char)} (h : units cs = u :: us)
    (hu : ends u) : inside cs = [] ∧ behind cs = u :: us := by
  rw [inside, behind, h]
  exact ⟨List.takeWhile_cons_of_neg (by simpa using hu),
    List.dropWhile_cons_of_neg (by simpa using hu)⟩

/-- A literal is closed by a quote and otherwise left open. -/
theorem read_eq (cs : List Char) :
    read cs = if (behind cs).head? = some ['"']
      then ⟨some ((inside cs).flatMap meaning), (inside cs).flatten ++ ['"'],
        (behind cs).tail.flatten⟩
      else ⟨none, (inside cs).flatten, (behind cs).flatten⟩ := by
  fun_induction read cs with
  | case1 => rfl
  | case2 => rfl
  | case3 c cs ih =>
    have hends : ¬ends ['\\', c] := by simp [ends]
    have hunits : units ('\\' :: c :: cs) = ['\\', c] :: units cs := rfl
    obtain ⟨hinside, hbehind⟩ := inside_of_units hunits hends
    rw [ih, hinside, hbehind, List.flatMap_cons, meaning_escape]
    split <;> rfl
  | case4 cs =>
    have hunits : units ('"' :: cs) = ['"'] :: units cs := units_cons_of_ne cs (by decide)
    obtain ⟨hinside, hbehind⟩ := inside_of_ends hunits rfl
    rw [hinside, hbehind, List.head?_cons, if_pos rfl, List.tail_cons, flatten_units]
    rfl
  | case5 cs =>
    have hunits : units ('\n' :: cs) = ['\n'] :: units cs := units_cons_of_ne cs (by decide)
    obtain ⟨hinside, hbehind⟩ := inside_of_ends hunits rfl
    rw [hinside, hbehind, List.head?_cons, if_neg (by decide), List.flatten_cons, flatten_units]
    rfl
  | case6 c cs hlast hescape hquote hline ih =>
    have hc : c ≠ '\\' := by
      rintro rfl
      rcases cs with _ | ⟨d, cs⟩
      · exact hlast rfl rfl
      · exact hescape d cs rfl rfl
    have hends : ¬ends [c] := by simp [ends, hquote, hline]
    obtain ⟨hinside, hbehind⟩ := inside_of_units (units_cons_of_ne cs hc) hends
    rw [ih, hinside, hbehind, List.flatMap_cons, meaning_single]
    split <;> rfl

/-! ## Line feeds -/

theorem exists_of_mem_units {u cs : List Char} (h : u ∈ units cs) :
    ∃ c, u = [c] ∨ u = ['\\', c] := by
  fun_induction units cs with
  | case1 c cs ih =>
    rcases List.mem_cons.1 h with rfl | h
    · exact ⟨c, .inr rfl⟩
    · exact ih h
  | case2 c cs _ ih =>
    rcases List.mem_cons.1 h with rfl | h
    · exact ⟨c, .inl rfl⟩
    · exact ih h
  | case3 => cases h

theorem count_of_mem_inside {u cs : List Char} (h : u ∈ inside cs) :
    u.count '\n' = if u = ['\\', '\n'] then 1 else 0 := by
  have hends : ends u = false := by simpa using List.mem_takeWhile_imp h
  obtain ⟨c, rfl | rfl⟩ := exists_of_mem_units ((List.takeWhile_prefix _).subset h)
  · have hc : c ≠ '\n' := by
      rintro rfl
      cases hends
    simp [List.count_eq_zero.2, Ne.symm hc]
  · by_cases hc : c = '\n' <;> simp [hc]

/-- The line feeds in a literal are those that are escaped. -/
theorem count_inside (cs : List Char) :
    (inside cs).flatten.count '\n' = (inside cs).count ['\\', '\n'] := by
  have hinside : ∀ u ∈ inside cs, u.count '\n' = if u = ['\\', '\n'] then 1 else 0 :=
    fun _ => count_of_mem_inside
  generalize inside cs = us at hinside
  induction us with
  | nil => rfl
  | cons u us ih =>
    rw [List.forall_mem_cons] at hinside
    rw [List.flatten_cons, List.count_append, ih hinside.2, hinside.1, List.count_cons,
      Nat.add_comm]
    simp only [beq_iff_eq]

end Quoted

end AlloyLexical

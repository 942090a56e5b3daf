import Mathlib.Data.List.TakeWhile
import AlloyLexical.Lexeme.Word

/-!
# Segments of qualified names

What is read as a qualified name is a word, or what is there of one, with
further words behind it, each after a slash (`Word.exists_segments`). Each of
these further words is a *segment*: it begins with a letter. Segments with
slashes between them are read again as one qualified name, up to where something
else follows (`Word.qualified_joined`).
-/

namespace AlloyLexical

/-! ## Where a run of characters ends -/

theorem takeWhile_append {p : Char → Bool} (w : List Char) {rest : List Char}
    (hrest : ∀ c ∈ rest.head?, ¬p c) : (w ++ rest).takeWhile p = w.takeWhile p := by
  induction w with
  | nil =>
    rcases rest with _ | ⟨c, rest⟩
    · rfl
    · exact List.takeWhile_cons_of_neg (hrest c rfl)
  | cons c w ih =>
    rw [List.cons_append, List.takeWhile_cons, List.takeWhile_cons, ih]

theorem dropWhile_append {p : Char → Bool} (w : List Char) {rest : List Char}
    (hrest : ∀ c ∈ rest.head?, ¬p c) : (w ++ rest).dropWhile p = w.dropWhile p ++ rest := by
  induction w with
  | nil =>
    rcases rest with _ | ⟨c, rest⟩
    · rfl
    · exact List.dropWhile_cons_of_neg (hrest c rfl)
  | cons c w ih =>
    rw [List.cons_append, List.dropWhile_cons, List.dropWhile_cons, ih]
    split <;> rfl

theorem takeWhile_append_of_head {p : Char → Bool} {w rest : List Char} (hw : ∀ c ∈ w, p c)
    (hrest : ∀ c ∈ rest.head?, ¬p c) : (w ++ rest).takeWhile p = w := by
  rw [takeWhile_append w hrest, List.takeWhile_eq_self_iff.2 hw]

theorem dropWhile_append_of_head {p : Char → Bool} {w rest : List Char} (hw : ∀ c ∈ w, p c)
    (hrest : ∀ c ∈ rest.head?, ¬p c) : (w ++ rest).dropWhile p = rest := by
  rw [dropWhile_append w hrest, List.dropWhile_eq_nil_iff.2 hw, List.nil_append]

/-- A run ends in front of a character that does not belong to it. -/
theorem not_of_head_dropWhile (p : Char → Bool) (cs : List Char) :
    ∀ c ∈ (cs.dropWhile p).head?, ¬p c := by
  intro c hc
  have hnot := List.head?_dropWhile_not p cs
  rw [Option.mem_def.1 hc] at hnot
  simp [hnot]

/-! ## Segments -/

namespace Word

/-- A *segment* of a name begins with a letter and has word characters only. -/
def IsSegment (w : List Char) : Prop := startsWithLetter w ∧ w.all isWordChar

instance (w : List Char) : Decidable (IsSegment w) :=
  inferInstanceAs (Decidable (startsWithLetter w ∧ w.all isWordChar))

/-- Segments with slashes between them. -/
def joined (segments : List (List Char)) : List Char := List.intercalate ['/'] segments

theorem joined_cons (w w' : List Char) (segments : List (List Char)) :
    joined (w :: w' :: segments) = w ++ '/' :: joined (w' :: segments) := by
  rw [joined, List.intercalate_cons_cons, List.append_assoc]
  rfl

theorem isWordChar_of_isAlpha {c : Char} (h : c.isAlpha) : isWordChar c := by
  simp [isWordChar, Char.isAlphanum, h]

theorem IsSegment.isWordChar {w : List Char} (h : IsSegment w) : ∀ c ∈ w, isWordChar c :=
  List.all_eq_true.1 h.2

theorem IsSegment.startsWithLetter {w : List Char} (h : IsSegment w)
    (segments : List (List Char)) (cs : List Char) :
    startsWithLetter (joined (w :: segments) ++ cs) := by
  rcases w with _ | ⟨c, w⟩
  · cases h.1
  · rw [joined, List.intercalate_cons_cons_left]
    exact h.1

/-- A word in front of a text that goes on with a letter is a segment. -/
theorem isSegment_takeWhile {cs : List Char} (h : startsWithLetter cs) :
    IsSegment (cs.takeWhile isWordChar) := by
  refine ⟨?_, List.all_takeWhile⟩
  rcases cs with _ | ⟨c, cs⟩
  · cases h
  · rw [List.takeWhile_cons_of_pos (isWordChar_of_isAlpha h)]
    exact h

/-! ## Reading a name -/

/-- A qualified name is made of the word it begins with and of segments. -/
theorem exists_segments (cs : List Char) : ∃ segments,
    (qualified cs).1 = joined (cs.takeWhile isWordChar :: segments) ∧
      ∀ w ∈ segments, IsSegment w := by
  fun_induction qualified cs with
  | case1 c cs hc text rest hq ih =>
    obtain ⟨segments, htext, hsegments⟩ := ih
    rw [hq] at htext
    by_cases hword : isWordChar c
    · refine ⟨segments, ?_, hsegments⟩
      rw [List.takeWhile_cons_of_pos hword, joined, List.intercalate_cons_cons_left]
      exact congrArg (c :: ·) htext
    · -- The word of the rest becomes a segment behind the slash.
      simp only [hword, Bool.false_or, Bool.and_eq_true, decide_eq_true_eq] at hc
      refine ⟨cs.takeWhile isWordChar :: segments, ?_,
        List.forall_mem_cons.2 ⟨isSegment_takeWhile hc.2, hsegments⟩⟩
      rw [List.takeWhile_cons_of_neg hword, joined_cons, hc.1]
      exact congrArg ('/' :: ·) htext
  | case2 c cs hc =>
    rw [Bool.or_eq_true, not_or] at hc
    refine ⟨[], ?_, List.forall_mem_nil _⟩
    rw [List.takeWhile_cons_of_neg hc.1]
    rfl
  | case3 => exact ⟨[], rfl, List.forall_mem_nil _⟩

theorem qualified_append_of_isWordChar {w : List Char} (hw : ∀ c ∈ w, isWordChar c)
    (cs : List Char) : qualified (w ++ cs) = (w ++ (qualified cs).1, (qualified cs).2) := by
  induction w with
  | nil => rfl
  | cons c w ih =>
    rw [List.forall_mem_cons] at hw
    rw [List.cons_append, qualified_cons _ hw.1, ih hw.2]
    rfl

/-- A qualified name is the word it begins with and what continues it behind that. -/
theorem fst_qualified (cs : List Char) : (qualified cs).1 =
    cs.takeWhile isWordChar ++ (qualified (cs.dropWhile isWordChar)).1 := by
  have hword : ∀ c ∈ cs.takeWhile isWordChar, isWordChar c := fun _ => List.mem_takeWhile_imp
  conv => lhs; rw [← List.takeWhile_append_dropWhile (p := isWordChar) (l := cs)]
  rw [qualified_append_of_isWordChar hword]

theorem qualified_slash {cs : List Char} (h : startsWithLetter cs) :
    qualified ('/' :: cs) = ('/' :: (qualified cs).1, (qualified cs).2) := by
  rw [qualified, if_pos]
  rw [h]
  rfl

/-- Whether a name goes on with a text: with a word character, or with a slash
    and a letter. -/
def continues : List Char → Bool
  | c :: cs => isWordChar c || (c = '/' && startsWithLetter cs)
  | [] => false

theorem not_isWordChar_of_not_continues {rest : List Char} (h : ¬continues rest) :
    ∀ c ∈ rest.head?, ¬isWordChar c := by
  intro c hc hword
  obtain ⟨cs, rfl⟩ := List.head?_eq_some_iff.1 hc
  exact h (by rw [continues, hword]; rfl)

/-- Behind less of a text, no name goes on that did not go on before. -/
theorem not_continues_of_append {rest more : List Char} (h : ¬continues (rest ++ more)) :
    ¬continues rest := by
  rcases rest with _ | ⟨c, _ | ⟨d, rest⟩⟩
  · exact nofun
  · intro hc
    rw [continues, startsWithLetter, Bool.and_false, Bool.or_false] at hc
    exact h (by rw [List.singleton_append, continues, hc]; rfl)
  · exact h

theorem qualified_of_not_continues {rest : List Char} (h : ¬continues rest) :
    qualified rest = ([], rest) := by
  rcases rest with _ | ⟨c, rest⟩
  · rfl
  · rw [qualified]
    exact if_neg h

/-- A name is read as far as it goes on. -/
theorem not_continues_qualified (cs : List Char) : ¬continues (qualified cs).2 := by
  fun_induction qualified cs with
  | case1 c cs _ text rest hq ih =>
    rw [hq] at ih
    exact ih
  | case2 c cs hc => exact hc
  | case3 => exact Bool.false_ne_true

/-- Segments are read as one name, up to where no name goes on. -/
theorem qualified_joined {w : List Char} {segments : List (List Char)} {rest : List Char}
    (hsegments : ∀ v ∈ w :: segments, IsSegment v) (hrest : ¬continues rest) :
    qualified (joined (w :: segments) ++ rest) = (joined (w :: segments), rest) := by
  induction segments generalizing w with
  | nil =>
    have hw := (hsegments w List.mem_cons_self).isWordChar
    rw [joined, List.intercalate_singleton, qualified_append_of_isWordChar hw,
      qualified_of_not_continues hrest, List.append_nil]
  | cons v segments ih =>
    rw [List.forall_mem_cons] at hsegments
    -- The slash belongs to the name, because a letter follows it.
    have hv : startsWithLetter (joined (v :: segments) ++ rest) :=
      (List.forall_mem_cons.1 hsegments.2).1.startsWithLetter segments rest
    rw [joined_cons, List.append_assoc, qualified_append_of_isWordChar hsegments.1.isWordChar,
      List.cons_append, qualified_slash hv, ih hsegments.2]

/-- A name begins with the word that is its first segment. -/
theorem takeWhile_joined {w : List Char} (segments : List (List Char)) {rest : List Char}
    (hw : IsSegment w) (hrest : ∀ c ∈ rest.head?, ¬isWordChar c) :
    (joined (w :: segments) ++ rest).takeWhile isWordChar = w := by
  rcases segments with _ | ⟨v, segments⟩
  · rw [joined, List.intercalate_singleton]
    exact takeWhile_append_of_head hw.isWordChar hrest
  · rw [joined_cons, List.append_assoc]
    refine takeWhile_append_of_head hw.isWordChar ?_
    rintro _ ⟨⟩
    decide

end Word

end AlloyLexical

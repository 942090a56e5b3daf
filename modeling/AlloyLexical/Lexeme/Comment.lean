/-!
# Block comments

A block comment ends with the first `*/` after its opening `/*`, whatever stands
between them: comments are not nested, and a quote means nothing in them.
-/

namespace AlloyLexical

namespace Comment

/-- The part of a text up to the first `*/`, which belongs to it, and the part
    after it. -/
def close? : List Char → Option (List Char × List Char)
  | '*' :: '/' :: cs => some (['*', '/'], cs)
  | c :: cs => (close? cs).map fun (text, rest) => (c :: text, rest)
  | [] => none

theorem close?_cons (c : Char) (cs : List Char) : close? (c :: cs) =
    if c = '*' ∧ cs.head? = some '/' then some (['*', '/'], cs.tail)
    else (close? cs).map fun (text, rest) => (c :: text, rest) := by
  split
  · next h =>
    obtain ⟨cs, rfl⟩ := List.head?_eq_some_iff.1 h.2
    rw [h.1]
    rfl
  · next h =>
    rw [close?]
    rintro cs rfl rfl
    exact h ⟨rfl, rfl⟩

/-- Closing a comment divides the text. -/
theorem append_of_close? {cs text rest : List Char} (h : close? cs = some (text, rest)) :
    text ++ rest = cs := by
  fun_induction close? cs generalizing text with
  | case1 cs =>
    obtain ⟨rfl, rfl⟩ : ['*', '/'] = text ∧ cs = rest := by simpa using h
    rfl
  | case2 c cs _ ih =>
    obtain ⟨⟨text', rest'⟩, hclose, heq⟩ := Option.map_eq_some_iff.1 h
    obtain ⟨rfl, rfl⟩ : c :: text' = text ∧ rest' = rest := by simpa using heq
    simp [ih hclose]
  | case3 => cases h

end Comment

end AlloyLexical

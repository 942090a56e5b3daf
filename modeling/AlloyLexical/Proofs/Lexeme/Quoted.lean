import AlloyLexical.Lexeme.Quoted

/-!
# Writing quoted texts

What stands between the quotes of a literal is made of units, and means what its
units mean one after the other (`Quoted.Decodes`). Reading a literal is reading
its units and then looking at what comes behind them (`Quoted.read_of_decodes`):
a quote that closes the literal, or what leaves it open (`Quoted.LeavesOpen`).
Every text begins with units that one of the two comes behind
(`Quoted.exists_decodes`).

Every text can be written between double quotes: with a backslash in front of
each quote and of each backslash, and with `\n` for a line feed, it has no
character left that would end the literal. Reading what was written gives the
text again (`Quoted.read_encode`).
-/

namespace AlloyLexical

namespace Quoted

/-! ## Units -/

/-- The text `body` is made of units that do not end a literal, a backslash and
    the character after it or any other character but a quote and a line feed,
    and means `content`. -/
inductive Decodes : List Char → List Char → Prop
  | nil : Decodes [] []
  | escape (c : Char) {body content : List Char} : Decodes body content →
    Decodes ('\\' :: c :: body) (escaped c ++ content)
  | single {c : Char} {body content : List Char} : c ≠ '\\' → c ≠ '"' → c ≠ '\n' →
    Decodes body content → Decodes (c :: body) (c :: content)

/-- Whether a literal is left open by what comes behind its units: the end of the
    text, a backslash that is the last character of the text, or a line feed. -/
def LeavesOpen (tail : List Char) : Prop := tail = [] ∨ tail = ['\\'] ∨ tail.head? = some '\n'

theorem Reading.prepend_prepend (meaning meaning' unit unit' : List Char) (r : Reading) :
    (r.prepend meaning unit).prepend meaning' unit' =
      r.prepend (meaning' ++ meaning) (unit' ++ unit) := by
  rw [prepend, prepend, prepend, Option.map_map, List.append_assoc]
  congr 2
  funext content
  exact (List.append_assoc _ _ _).symm

theorem read_cons_of_ne {c : Char} (cs : List Char) (hc : c ≠ '\\') (hquote : c ≠ '"')
    (hline : c ≠ '\n') : read (c :: cs) = (read cs).prepend [c] [c] := by
  rw [read]
  · rw [if_neg hquote, if_neg hline]
  · rintro rfl
    exact absurd rfl hc
  · rintro _ _ rfl
    exact absurd rfl hc

/-- A literal is read unit by unit. -/
theorem read_of_decodes {body content : List Char} (h : Decodes body content) (rest : List Char) :
    read (body ++ rest) = (read rest).prepend content body := by
  induction h with
  | nil => simp [Reading.prepend]
  | escape c _ ih =>
    rw [List.cons_append, List.cons_append, read, ih, Reading.prepend_prepend]
    rfl
  | single hc hquote hline _ ih =>
    rw [List.cons_append, read_cons_of_ne _ hc hquote hline, ih, Reading.prepend_prepend]
    rfl

theorem read_closed {body content : List Char} (h : Decodes body content) (rest : List Char) :
    read (body ++ '"' :: rest) = ⟨some content, body ++ ['"'], rest⟩ := by
  rw [read_of_decodes h]
  simp [read, Reading.prepend]

theorem content_of_leavesOpen {body content tail : List Char} (h : Decodes body content)
    (htail : LeavesOpen tail) : (read (body ++ tail)).content = none := by
  rw [read_of_decodes h]
  rcases htail with rfl | rfl | htail
  · rfl
  · rfl
  · obtain ⟨tail, rfl⟩ := List.head?_eq_some_iff.1 htail
    rfl

/-- Behind the units that a text begins with, a literal is closed or left
    open. -/
theorem exists_decodes (cs : List Char) : ∃ body content tail, cs = body ++ tail ∧
    Decodes body content ∧ (tail.head? = some '"' ∨ LeavesOpen tail) := by
  fun_induction read cs with
  | case1 => exact ⟨[], [], [], rfl, .nil, .inr (.inl rfl)⟩
  | case2 => exact ⟨[], [], ['\\'], rfl, .nil, .inr (.inr (.inl rfl))⟩
  | case3 c cs ih =>
    obtain ⟨body, content, tail, rfl, hbody, htail⟩ := ih
    exact ⟨_, _, tail, rfl, .escape c hbody, htail⟩
  | case4 cs => exact ⟨[], [], _, rfl, .nil, .inl rfl⟩
  | case5 cs => exact ⟨[], [], _, rfl, .nil, .inr (.inr (.inr rfl))⟩
  | case6 c cs hlast hescape hquote hline ih =>
    obtain ⟨body, content, tail, rfl, hbody, htail⟩ := ih
    have hc : c ≠ '\\' := by
      rintro rfl
      rcases hcs : body ++ tail with _ | ⟨d, cs⟩
      · exact hlast rfl hcs
      · exact hescape d cs rfl hcs
    exact ⟨_, _, tail, rfl, .single hc hquote hline hbody, htail⟩

/-! ## Writing -/

/-- How a character is written in a literal. -/
def encodeChar (c : Char) : List Char :=
  if c = '\n' then ['\\', 'n'] else if c = '"' ∨ c = '\\' then ['\\', c] else [c]

/-- How a text is written in a literal, without the quotes around it. -/
def encode (content : List Char) : List Char := content.flatMap encodeChar

/-- What was written means the text again. -/
theorem decodes_encode (content : List Char) : Decodes (encode content) content := by
  induction content with
  | nil => exact .nil
  | cons c content ih =>
    rw [encode, List.flatMap_cons, ← encode, encodeChar]
    split
    · next hc =>
      rw [hc]
      exact .escape 'n' ih
    split
    · next hc => rcases hc with rfl | rfl <;> exact .escape _ ih
    · next hline hc =>
      rw [not_or] at hc
      exact .single hc.2 hc.1 hline ih

/-- A text is read as it was written, up to the quote that closes it. -/
theorem read_encode (content rest : List Char) :
    read (encode content ++ '"' :: rest) = ⟨some content, encode content ++ ['"'], rest⟩ :=
  read_closed (decodes_encode content) rest

end Quoted

end AlloyLexical

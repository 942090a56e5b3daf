import AlloyLexical.Proofs.Cursor.Walk
import AlloyLexical.Proofs.Lexeme.Word

/-!
# The loops of a cursor

Where each loop leaves a cursor that stands between two characters. Every one of them
ends between two characters, and goes over what the characters ahead say:

* a comment is gone over byte by byte, up to the end of the line
  (`Cursor.At.skipLine_eq`) or to where it is closed (`Cursor.At.skipBlock_eq`), and
  what closes a comment in bytes closes it in characters (`Cursor.close?_encode`);
* a literal is gone over character by character (`Cursor.At.readContent_eq`), because
  its bytes of ASCII, which the cursor goes over as bytes, are characters; there is
  always a character to go on with;
* words and numbers have nothing but ASCII in them, so that going over their bytes is
  going over their characters (`Cursor.At.advanceWhile_eq`, `Cursor.At.skipParts_eq`).
-/

namespace AlloyLexical

namespace Cursor

variable {c c' : Cursor} {b d : Char} {before ahead cs seen : List Char}

/-! ## Characters of each sort -/

theorem ascii_of_isBlank (h : Lexeme.isBlank d) : d.val ≤ 127 := by
  simp only [Lexeme.isBlank, Bool.or_eq_true, decide_eq_true_eq] at h
  rcases h with (((rfl | rfl) | rfl) | rfl) | rfl <;> decide

theorem ascii_of_isDigit (h : d.isDigit) : d.val ≤ 127 := by
  rw [Char.isDigit, Bool.and_eq_true, decide_eq_true_iff, decide_eq_true_iff] at h
  exact UInt32.le_trans h.2 (by decide)

theorem ascii_of_isAlpha (h : d.isAlpha) : d.val ≤ 127 := by
  rcases Bool.or_eq_true_iff.1 h with h | h
  · exact UInt32.le_trans (of_decide_eq_true h).2 (by decide)
  · exact UInt32.le_trans (of_decide_eq_true (Bool.and_eq_true_iff.1 h).2) (by decide)

theorem ascii_of_isWordChar (h : Word.isWordChar d) : d.val ≤ 127 := by
  simp only [Word.isWordChar, Char.isAlphanum, Bool.or_eq_true, decide_eq_true_eq] at h
  rcases h with (((h | h) | rfl) | rfl) | rfl
  · exact ascii_of_isAlpha h
  · exact ascii_of_isDigit h
  · decide
  · decide
  · decide

/-! ## Layout -/

theorem skipTrivia_of_none (h : c.peek = none) : c.skipTrivia = (.ok (), c) := by
  rw [skipTrivia]
  split
  · rfl
  · next h' => cases h.symm.trans h'

theorem skipTrivia_of_some (h : c.peek = some b) : c.skipTrivia =
    if Lexeme.isBlank b then c.advance.skipTrivia
    else if (b = '/' ∨ b = '-') ∧ c.peekAt 1 = some b then c.skipLine.skipTrivia
    else if b = '/' ∧ c.peekAt 1 = some '*' then
      match c.skipBlock with
      | (.error e, c') => (.error e, c')
      | (.ok (), c') => c'.skipTrivia
    else (.ok (), c) := by
  conv => lhs; rw [skipTrivia]
  split
  · next h' => cases h.symm.trans h'
  · next b' h' =>
    obtain rfl := Option.some.inj (h.symm.trans h')
    split
    · rfl
    split
    · rfl
    split
    · split
      · next hblock => simp only [hblock]
      · next hblock => simp only [hblock]
    · rfl

theorem close?_append_of_ne {bs : List Char} (h : ∀ b ∈ bs, b ≠ '*') (cs : List Char) :
    Comment.close? (bs ++ cs) = (Comment.close? cs).map fun (text, rest) => (bs ++ text, rest) := by
  induction bs with
  | nil => simp
  | cons b bs ih =>
    rw [List.forall_mem_cons] at h
    rw [List.cons_append, Comment.close?_cons, if_neg fun hb => h.1 hb.1, ih h.2, Option.map_map]
    rfl

/-- A comment is closed by the same bytes as by characters. -/
theorem close?_encode (cs : List Char) : Comment.close? (encode cs) =
    (Comment.close? cs).map fun (text, rest) => (encode text, encode rest) := by
  induction cs with
  | nil => rfl
  | cons c cs ih =>
    have hhead : (encode cs).head? = some '/' ↔ cs.head? = some '/' := by
      simp [head?_encode, lead_eq_iff]
    rw [encode_cons]
    by_cases hc : c = '*'
    · rw [hc, encodeChar_of_ascii (by decide), List.singleton_append, Comment.close?_cons,
        Comment.close?_cons]
      simp only [hhead]
      split
      · next hclose =>
        obtain ⟨cs, rfl⟩ := List.head?_eq_some_iff.1 hclose.2
        rfl
      · rw [ih, Option.map_map, Option.map_map]
        rfl
    · rw [close?_append_of_ne (ne_of_mem_encodeChar (by decide) hc), Comment.close?_cons,
        if_neg fun hclose => hc hclose.1, ih, Option.map_map, Option.map_map]
      simp [Function.comp_def]

theorem At.skipLine_eq (h : c.At before ahead) :
    c.skipLine = c.pastBytes (encode (ahead.takeWhile (· ≠ '\n'))) := by
  rw [skipLine, advanceWhile_eq, h.rest_eq, (isUniform_ne (by decide)).takeWhile_encode]

theorem At.skipBlock_eq (h : c.At before ('/' :: '*' :: cs)) : c.skipBlock =
    match Comment.close? cs with
    | some (text, _) => (.ok (), c.pastBytes (encode ('/' :: '*' :: text)))
    | none => (.error ⟨.unterminatedComment, c.here⟩, c.pastBytes (encode ('/' :: '*' :: cs))) := by
  have hopen (cs : List Char) : encode ('/' :: '*' :: cs) = ['/', '*'] ++ encode cs := by
    rw [encode_cons, encode_cons, encodeChar_of_ascii (by decide), encodeChar_of_ascii (by decide)]
    rfl
  have hrest : c.rest = ['/', '*'] ++ encode cs := h.rest_eq.trans (hopen cs)
  have hadvance : c.advance.advance = c.pastBytes ['/', '*'] := advanceBy_eq hrest
  rw [skipBlock, hadvance, closeBlock_eq, rest_pastBytes hrest, close?_encode]
  rcases Comment.close? cs with _ | ⟨text, rest⟩
  · simp only [hopen, pastBytes_append]
    rfl
  · simp only [hopen, pastBytes_append]
    rfl

/-! ## Literals -/

theorem readContent_of_none (h : c.peek = none) : c.readContent seen = .ok (none, c) := by
  rw [readContent]
  split
  · rfl
  · next h' => cases h.symm.trans h'

theorem readContent_of_some (h : c.peek = some b) : c.readContent seen =
    if b = '\n' then .ok (none, c)
    else if b = '\\' then
      match c.advance.peek with
      | none => c.advance.readContent seen
      | some b =>
        if b = 'n' then c.advance.advance.readContent ('\n' :: seen)
        else if b = '"' then c.advance.advance.readContent ('"' :: seen)
        else if b = '\\' then c.advance.advance.readContent ('\\' :: seen)
        else
          match c.advance.advanceChar with
          | some (d, c') => c'.readContent (d :: '\\' :: seen)
          | none => c.advance.readContent ('\\' :: seen)
    else if b = '"' then .ok (some seen.reverse, c.advance)
    else
      match c.advanceChar with
      | some (d, c') => c'.readContent (d :: seen)
      | none => .error .loop := by
  conv => lhs; rw [readContent]
  split
  · next h' => cases h.symm.trans h'
  next b' h' =>
  obtain rfl := Option.some.inj (h.symm.trans h')
  split
  · rfl
  split
  · split
    · next hpeek => rw [hpeek]
    · next hpeek =>
      simp only [hpeek]
      split
      · rfl
      split
      · rfl
      split
      · rfl
      · split
        · next hchar => rw [hchar]
        · next hchar => rw [hchar]
  split
  · rfl
  · split
    · next hchar => simp only [hchar]
    · next hchar => simp only [hchar]

/-- The character behind a backslash is read together with it. -/
theorem At.readContent_escape (h : c.At before ('\\' :: d :: cs)) : c.readContent seen =
    (c.pastChars ['\\', d]).readContent ((Quoted.escaped d).reverse ++ seen) := by
  have hadvance : c.advance = c.pastChars ['\\'] := h.advance_eq (by decide)
  have h' : c.advance.At (before ++ ['\\']) (d :: cs) := hadvance ▸ h.pastChars (w := ['\\'])
  have hpast : c.pastChars ['\\', d] = c.advance.pastChars [d] := by
    rw [hadvance]
    exact pastChars_append c ['\\'] [d]
  have hpeek : c.advance.peek = some (lead d) := h'.peek_eq
  rw [readContent_of_some (b := '\\') h.peek_eq, if_neg (by decide), if_pos rfl, hpast, hpeek]
  simp (disch := decide) only [lead_eq_iff, h'.advanceChar_eq]
  rw [Quoted.escaped]
  by_cases hn : d = 'n'
  · rw [if_pos hn, if_pos hn, h'.advance_eq (by rw [hn]; decide)]
    rfl
  by_cases hquote : d = '"'
  · rw [if_neg hn, if_neg hn, if_pos hquote, if_pos (.inl hquote),
      h'.advance_eq (by rw [hquote]; decide), hquote]
    rfl
  by_cases hescape : d = '\\'
  · rw [if_neg hn, if_neg hn, if_neg hquote, if_pos hescape, if_pos (.inr hescape),
      h'.advance_eq (by rw [hescape]; decide), hescape]
    rfl
  · rw [if_neg hn, if_neg hn, if_neg hquote, if_neg hescape, if_neg (not_or.2 ⟨hquote, hescape⟩)]
    rfl

/-- A literal is read to where it is closed or left open. -/
theorem At.readContent_eq (h : c.At before ahead) (seen : List Char) : c.readContent seen =
    .ok ((Quoted.read ahead).content.map (seen.reverse ++ ·),
      c.pastChars (Quoted.read ahead).text) := by
  fun_induction Quoted.read ahead generalizing c before seen with
  | case1 =>
    rw [readContent_of_none (by rw [h.peek_eq]; rfl)]
    rfl
  | case2 =>
    have hadvance : c.advance = c.pastChars ['\\'] := h.advance_eq (by decide)
    have h' : c.advance.At (before ++ ['\\']) [] := hadvance ▸ h.pastChars (w := ['\\'])
    have hpeek : c.advance.peek = none := h'.peek_eq
    rw [readContent_of_some (b := '\\') h.peek_eq, if_neg (by decide), if_pos rfl, hpeek]
    exact (readContent_of_none hpeek).trans (by rw [hadvance]; rfl)
  | case3 d cs ih =>
    rw [h.readContent_escape, ih (h.pastChars (w := ['\\', d]))]
    simp [Quoted.Reading.prepend, Function.comp_def, ← pastChars_append]
  | case4 cs =>
    rw [readContent_of_some (b := '"') h.peek_eq, if_neg (by decide), if_neg (by decide),
      if_pos rfl, h.advance_eq (by decide)]
    simp
  | case5 cs =>
    rw [readContent_of_some (b := '\n') h.peek_eq, if_pos rfl]
    rfl
  | case6 d cs hne hescape hquote hnewline ih =>
    have hbackslash : d ≠ '\\' := by
      rintro rfl
      rcases cs with _ | ⟨x, cs⟩
      · exact hne rfl rfl
      · exact hescape x cs rfl rfl
    have hpeek : c.peek = some (lead d) := h.peek_eq
    have hlead {x : Char} (hx : x.val ≤ 127) (hd : d ≠ x) : lead d ≠ x :=
      fun heq => hd ((lead_eq_iff hx).1 heq)
    rw [readContent_of_some hpeek, if_neg (hlead (by decide) hnewline),
      if_neg (hlead (by decide) hbackslash), if_neg (hlead (by decide) hquote), h.advanceChar_eq]
    dsimp only
    rw [ih (h.pastChars (w := [d]))]
    simp [Quoted.Reading.prepend, Function.comp_def, ← pastChars_append]

/-! ## Words -/

theorem At.advanceWhile_eq {p : Char → Bool} (hp : ∀ d, p d → d.val ≤ 127)
    (h : c.At before ahead) : c.advanceWhile p = c.pastChars (ahead.takeWhile p) := by
  have hascii : ∀ d ∈ ahead.takeWhile p, d.val ≤ 127 :=
    fun d hd => hp d (List.mem_takeWhile_imp hd)
  rw [Cursor.advanceWhile_eq, h.rest_eq, (isUniform_of_ascii hp).takeWhile_encode,
    encode_of_ascii hascii, pastChars_of_ascii c hascii]

theorem startsWithLetter_eq (cs : List Char) :
    Word.startsWithLetter cs = (cs.head?.map lead).any Char.isAlpha := by
  rcases cs with _ | ⟨d, cs⟩
  · rfl
  · exact ((isUniform_of_ascii fun _ => ascii_of_isAlpha).apply_lead d).symm

/-- Behind a word, the parts of a qualified name are read as far as it goes on. -/
theorem At.skipParts_eq (h : c.At before ahead) (hhead : ∀ d ∈ ahead.head?, ¬Word.isWordChar d) :
    c.skipParts = c.pastChars (Word.qualified ahead).1 := by
  fun_induction skipParts c generalizing before ahead with
  | case1 c hpeek =>
    rw [h.peek_eq, Option.map_eq_none_iff, List.head?_eq_none_iff] at hpeek
    rw [hpeek]
    rfl
  | case2 c b hpeek hb _ ih =>
    obtain ⟨rfl, hletter⟩ := hb
    rw [h.peek_eq, Option.map_eq_some_iff] at hpeek
    obtain ⟨d, hd, hlead⟩ := hpeek
    obtain rfl := (lead_eq_iff (by decide)).1 hlead
    obtain ⟨cs, rfl⟩ := List.head?_eq_some_iff.1 hd
    rw [h.peekAt_one (by decide), ← startsWithLetter_eq] at hletter
    have hadvance : c.advance = c.pastChars ['/'] := h.advance_eq (by decide)
    have h' : c.advance.At (before ++ ['/']) cs := hadvance ▸ h.pastChars (w := ['/'])
    have hword := h'.advanceWhile_eq fun _ => ascii_of_isWordChar
    rw [← cs.takeWhile_append_dropWhile (p := Word.isWordChar)] at h'
    rw [ih (hword ▸ h'.pastChars) (not_of_head_dropWhile _ cs), hword, hadvance,
      Word.qualified_slash hletter, ← pastChars_append, ← pastChars_append, Word.fst_qualified cs]
    rfl
  | case3 c b hpeek hb =>
    rcases ahead with _ | ⟨d, cs⟩
    · rfl
    · have hd : lead d = b := Option.some.inj (h.peek_eq.symm.trans hpeek)
      have hnot : ¬Word.continues (d :: cs) := by
        rw [Word.continues, Bool.or_eq_true, Bool.and_eq_true, decide_eq_true_iff]
        rintro (hword | ⟨rfl, hletter⟩)
        · exact hhead d rfl hword
        · refine hb ⟨hd.symm.trans (lead_of_ascii (by decide)), ?_⟩
          rwa [h.peekAt_one (by decide), ← startsWithLetter_eq]
      rw [Word.qualified_of_not_continues hnot]
      rfl

end Cursor

end AlloyLexical

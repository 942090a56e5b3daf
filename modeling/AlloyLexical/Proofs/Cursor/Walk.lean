import AlloyLexical.Cursor.Scan
import AlloyLexical.Proofs.Cursor.Bytes

/-!
# The walk of a cursor

Every move of a cursor leads over bytes that are ahead (`Cursor.pastBytes`) or over
characters that are ahead (`Cursor.pastChars`), and its counters are moved with each
of them. The loops over bytes go over a run of them (`Cursor.advanceWhile_eq`), or to
where a comment is closed (`Cursor.closeBlock_eq`).

A cursor that stands between two characters (`Cursor.At`) sees the characters ahead
of it by their bytes, can be asked for the character ahead, and can have the text
behind it cut out. It still stands between two characters when it has gone over all
the bytes of some characters (`Cursor.At.pastBytes`), or over the characters
themselves (`Cursor.At.pastChars`).
-/

namespace AlloyLexical

namespace Cursor

variable {c c' : Cursor} {b d : Char} {bs before ahead w : List Char}

/-! ## Bytes ahead -/

theorem peekAt_eq (c : Cursor) (n : Nat) : c.peekAt n = c.rest[n]? := by
  rw [peekAt, rest, bytes, List.getElem?_drop, List.getElem?_map, Array.getElem?_toList,
    getElem?_def, getElem?_def]
  rfl

theorem peek_eq (c : Cursor) : c.peek = c.rest.head? := by
  rw [List.head?_eq_getElem?]
  exact peekAt_eq c 0

theorem rest_of_peek_none (h : c.peek = none) : c.rest = [] :=
  List.head?_eq_none_iff.1 ((peek_eq c).symm.trans h)

theorem exists_rest_of_peek (h : c.peek = some b) : ∃ bs, c.rest = b :: bs :=
  List.head?_eq_some_iff.1 ((peek_eq c).symm.trans h)

theorem length_bytes (text : String) : (bytes text).length = text.utf8ByteSize := by
  rw [bytes, List.length_map, Array.length_toList]
  rfl

/-- The cursor after some bytes. -/
def pastBytes (c : Cursor) (bs : List Char) : Cursor :=
  { c with pos := c.pos + bs.length, counters := bs.foldl Counters.past c.counters }

@[simp] theorem pastBytes_nil (c : Cursor) : c.pastBytes [] = c := rfl

theorem pastBytes_append (c : Cursor) (bs bs' : List Char) :
    c.pastBytes (bs ++ bs') = (c.pastBytes bs).pastBytes bs' := by
  simp only [pastBytes, List.length_append, List.foldl_append, Nat.add_assoc]

theorem pastBytes_cons (c : Cursor) (b : Char) (bs : List Char) :
    c.pastBytes (b :: bs) = (c.pastBytes [b]).pastBytes bs := pastBytes_append c [b] bs

theorem rest_pastBytes (h : c.rest = w ++ bs) : (c.pastBytes w).rest = bs := by
  show (bytes c.text).drop (c.pos + w.length) = bs
  rw [← List.drop_drop]
  exact (congrArg (List.drop w.length) h).trans List.drop_left

theorem advance_eq (h : c.rest = b :: bs) : c.advance = c.pastBytes [b] :=
  advance_of_peek (by rw [peek_eq, h]; rfl)

theorem advanceBy_eq (h : c.rest = w ++ bs) : c.advanceBy w.length = c.pastBytes w := by
  induction w generalizing c with
  | nil => rfl
  | cons b w ih =>
    rw [pastBytes_cons, List.length_cons, advanceBy, advance_eq h]
    exact ih (rest_pastBytes (w := [b]) h)

theorem advanceWhile_eq (p : Char → Bool) (c : Cursor) :
    c.advanceWhile p = c.pastBytes (c.rest.takeWhile p) := by
  fun_induction advanceWhile p c with
  | case1 c h =>
    rw [rest_of_peek_none h]
    rfl
  | case2 c b h hb _ ih =>
    obtain ⟨bs, hbs⟩ := exists_rest_of_peek h
    rw [ih, advance_eq hbs, rest_pastBytes (w := [b]) hbs, hbs, List.takeWhile_cons_of_pos hb]
    exact (pastBytes_cons c b _).symm
  | case3 c b h hb =>
    obtain ⟨bs, hbs⟩ := exists_rest_of_peek h
    rw [hbs, List.takeWhile_cons_of_neg hb]
    rfl

theorem closeBlock_eq (c : Cursor) : c.closeBlock =
    match Comment.close? c.rest with
    | some (text, _) => (true, c.pastBytes text)
    | none => (false, c.pastBytes c.rest) := by
  fun_induction closeBlock c with
  | case1 c h =>
    rw [rest_of_peek_none h]
    rfl
  | case2 c b h hb =>
    obtain ⟨rfl, hb⟩ := hb
    obtain ⟨bs, hbs⟩ := exists_rest_of_peek h
    rw [peekAt_eq, hbs, List.getElem?_cons_succ, ← List.head?_eq_getElem?] at hb
    obtain ⟨bs, rfl⟩ := List.head?_eq_some_iff.1 hb
    have hrest := rest_pastBytes (w := ['*']) hbs
    rw [hbs, advance_eq hbs, advance_eq hrest]
    rfl
  | case3 c b h hb _ ih =>
    obtain ⟨bs, hbs⟩ := exists_rest_of_peek h
    rw [peekAt_eq, hbs, List.getElem?_cons_succ, ← List.head?_eq_getElem?] at hb
    rw [ih, advance_eq hbs, rest_pastBytes (w := [b]) hbs, hbs, Comment.close?_cons, if_neg hb]
    rcases Comment.close? bs with _ | ⟨text, rest⟩
    · exact congrArg (Prod.mk false) (pastBytes_cons c b bs).symm
    · exact congrArg (Prod.mk true) (pastBytes_cons c b text).symm

/-! ## Characters ahead -/

/-- The cursor stands between two characters, or at an end of its text. -/
structure At (c : Cursor) (before ahead : List Char) : Prop where
  text : c.text.toList = before ++ ahead
  pos : c.pos = (encode before).length

/-- The cursor after some characters. -/
def pastChars (c : Cursor) (cs : List Char) : Cursor :=
  { c with pos := c.pos + (encode cs).length, counters := cs.foldl Counters.past c.counters }

theorem pastChars_append (c : Cursor) (cs cs' : List Char) :
    c.pastChars (cs ++ cs') = (c.pastChars cs).pastChars cs' := by
  simp only [pastChars, encode_append, List.length_append, List.foldl_append, Nat.add_assoc]

/-- Over characters of ASCII, both ways lead to the same. -/
theorem pastChars_of_ascii (c : Cursor) (h : ∀ d ∈ w, d.val ≤ 127) :
    c.pastChars w = c.pastBytes w := by
  rw [pastChars, encode_of_ascii h]
  rfl

namespace At

theorem text_eq (h : c.At before ahead) : c.text = String.ofList (before ++ ahead) := by
  rw [← h.text, String.ofList_toList]

theorem rest_eq (h : c.At before ahead) : c.rest = encode ahead := by
  rw [rest, bytes_eq, h.text, encode_append, h.pos, List.drop_left]

theorem peek_eq (h : c.At before ahead) : c.peek = ahead.head?.map lead := by
  rw [Cursor.peek_eq, h.rest_eq, head?_encode]

theorem peekAt_one (h : c.At before (d :: ahead)) (hd : d.val ≤ 127) :
    c.peekAt 1 = ahead.head?.map lead := by
  rw [peekAt_eq, h.rest_eq, encode_cons, encodeChar_of_ascii hd, ← head?_encode,
    List.head?_eq_getElem?]
  rfl

/-- Behind a character of ASCII, the cursor sees where another one is ahead. -/
theorem peekAt_one_iff (h : c.At before (d :: ahead)) (hd : d.val ≤ 127) (hb : b.val ≤ 127) :
    c.peekAt 1 = some b ↔ ahead.head? = some b := by
  rw [h.peekAt_one hd]
  rcases ahead with _ | ⟨d', ahead⟩
  · rfl
  · simp only [List.head?_cons, Option.map_some, Option.some.injEq, lead_eq_iff hb]

theorem char?_eq (h : c.At before ahead) : c.char? = ahead.head? := by
  rw [char?, h.text_eq, h.pos, length_encode]
  exact String.get?_of_valid before ahead

theorem onBoundary (h : c.At before ahead) : c.OnBoundary := by
  refine String.Pos.Raw.isValid_iff_exists_append.2
    ⟨String.ofList before, String.ofList ahead, ?_, ?_⟩
  · rw [h.text_eq, String.ofList_append]
  · rw [h.pos, length_encode, String.rawEndPos_ofList]

theorem utf8ByteSize_eq (h : c.At before ahead) :
    c.text.utf8ByteSize = c.pos + (encode ahead).length := by
  rw [← length_bytes, bytes_eq, h.text, encode_append, List.length_append, h.pos]

theorem slice_eq (h : c.At before (w ++ ahead)) (h' : c'.At (before ++ w) ahead) :
    c.slice c' = .ok (String.ofList w) := by
  have hpos : c'.pos = c.pos + (encode w).length := by
    rw [h'.pos, encode_append, List.length_append, h.pos]
  rw [slice, if_pos ⟨Nat.le_of_add_right_le hpos.ge, h.onBoundary, h'.onBoundary⟩, hpos,
    h.text_eq, h.pos, length_encode, length_encode, ← List.append_assoc]
  exact congrArg Except.ok (String.extract_of_valid before w ahead)

theorem restOfText_eq (h : c.At before ahead) : c.restOfText = .ok (encode ahead) := by
  rw [restOfText, if_pos (Nat.le_of_add_right_le h.utf8ByteSize_eq.ge), h.rest_eq]

theorem strayCharacter_eq (h : c.At before (d :: ahead)) : c.strayCharacter = .ok d := by
  rw [strayCharacter, if_pos h.onBoundary, h.char?_eq]
  rfl

theorem pastBytes (h : c.At before (w ++ ahead)) :
    (c.pastBytes (encode w)).At (before ++ w) ahead where
  text := by
    rw [List.append_assoc]
    exact h.text
  pos := by
    rw [encode_append, List.length_append, ← h.pos]
    rfl

theorem pastChars (h : c.At before (w ++ ahead)) : (c.pastChars w).At (before ++ w) ahead where
  text := by
    rw [List.append_assoc]
    exact h.text
  pos := by
    rw [encode_append, List.length_append, ← h.pos]
    rfl

theorem pastChars_takeWhile (h : c.At before ahead) (p : Char → Bool) :
    (c.pastChars (ahead.takeWhile p)).At (before ++ ahead.takeWhile p) (ahead.dropWhile p) := by
  rw [← ahead.takeWhile_append_dropWhile (p := p)] at h
  exact h.pastChars

/-- What the cursor has gone over is what is cut out. -/
theorem slice_pastChars (h : c.At before (w ++ ahead)) :
    c.slice (c.pastChars w) = .ok (String.ofList w) := h.slice_eq h.pastChars

theorem slice_takeWhile (h : c.At before ahead) (p : Char → Bool) :
    c.slice (c.pastChars (ahead.takeWhile p)) = .ok (String.ofList (ahead.takeWhile p)) := by
  rw [← ahead.takeWhile_append_dropWhile (p := p)] at h
  exact h.slice_pastChars

theorem advanceChar_eq (h : c.At before (d :: ahead)) :
    c.advanceChar = some (d, c.pastChars [d]) := by
  rw [advanceChar, h.char?_eq]
  simp [Cursor.pastChars, length_encodeChar]

/-- Over a character of ASCII, the cursor may as well go byte by byte. -/
theorem advance_eq (h : c.At before (d :: ahead)) (hd : d.val ≤ 127) :
    c.advance = c.pastChars [d] := by
  have hrest : c.rest = d :: encode ahead := by
    rw [h.rest_eq, encode_cons, encodeChar_of_ascii hd]
    rfl
  rw [Cursor.advance_eq hrest, pastChars_of_ascii]
  simpa using hd

end At

end Cursor

end AlloyLexical

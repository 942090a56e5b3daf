import AlloyLexical.Proofs.Scanner.Segments

/-!
# The longest match

Many texts could be cut into tokens in several ways: `<=>` could be one symbol, two or
three, and `a/b` one name or two with a slash between them. A token always takes as much
of the text as there is for it (`TakesLongest`):

* a symbol is the longest one that the text goes on with;
* of a word all characters are taken, and it is a reserved word just where all of them
  together make one. Otherwise it is a name, which takes all words that are behind it,
  each after a slash (`Word.Qualifies`);
* of a number all digits are taken.

No token is taken where a comment opens. The scanner looks for none of the longest: it
goes through a table of symbols and follows a name as far as it goes on. That these are
the longest ones is seen where a lexeme is written (`Lexeme.IsWritten.takesLongest`), and
so it holds of each token at the byte of the text where it begins
(`tokenize_takes_longest`).
-/

namespace AlloyLexical

/-! ## Longest prefixes -/

/-- Of all that the text begins with and `P` holds of, nothing is longer than `w`. -/
structure IsLongest (P : List Char → Prop) (w text : List Char) : Prop where
  isPrefix : w <+: text
  holds : P w
  longest : ∀ v, v <+: text → P v → v.length ≤ w.length

/-- A run of characters of a class is the longest one, where it ends in front of a
    character that is not of this class. -/
theorem isLongest_run {p : Char → Bool} {w rest : List Char} (hw : ∀ c ∈ w, p c)
    (hrest : ∀ c ∈ rest.head?, ¬p c) : IsLongest (fun v => ∀ c ∈ v, p c) w (w ++ rest) where
  isPrefix := List.prefix_append w rest
  holds := hw
  longest := by
    intro v hv hp
    by_contra hlength
    -- Something longer would take in the first character behind the run.
    obtain ⟨v, rfl⟩ := List.prefix_of_prefix_length_le (List.prefix_append w rest) hv
      (Nat.le_of_not_le hlength)
    rw [List.prefix_append_right_inj] at hv
    rcases v with _ | ⟨c, v⟩
    · exact hlength (by rw [List.append_nil])
    · obtain ⟨rest, rfl⟩ := hv
      exact hrest c rfl (hp c (List.mem_append_right w List.mem_cons_self))

theorem isLongest_takeWhile (p : Char → Bool) (text : List Char) :
    IsLongest (fun v => ∀ c ∈ v, p c) (text.takeWhile p) text := by
  have hrun : ∀ c ∈ text.takeWhile p, p c := fun c hc => List.mem_takeWhile_imp hc
  have h := isLongest_run hrun (not_of_head_dropWhile p text)
  rwa [List.takeWhile_append_dropWhile] at h

/-! ## Names -/

namespace Word

/-- The text begins with the word `r`, and with no more word characters. -/
def IsFirst (r text : List Char) : Prop := IsLongest (fun v => ∀ c ∈ v, isWordChar c) r text

/-- The text begins with `w`, which is a word or several words, each behind a slash and
    with a letter in front. Each of them is as long as it can be. -/
inductive Qualifies : List Char → List Char → Prop
  | word {r text : List Char} : IsFirst r text → Qualifies r text
  | segment {r w behind : List Char} : IsFirst r (r ++ '/' :: behind) → startsWithLetter behind →
    Qualifies w behind → Qualifies (r ++ '/' :: w) (r ++ '/' :: behind)

/-- Nothing qualifies that is not read. -/
theorem Qualifies.prefix_qualified {w text : List Char} (h : Qualifies w text) :
    w <+: (qualified text).1 := by
  induction h with
  | word hr =>
    obtain ⟨rest, rfl⟩ := hr.isPrefix
    rw [qualified_append_of_isWordChar hr.holds]
    exact List.prefix_append _ _
  | segment hr hletter _ ih =>
    rw [qualified_append_of_isWordChar hr.holds, qualified_slash hletter,
      List.prefix_append_right_inj, List.cons_prefix_cons]
    exact ⟨rfl, ih⟩

theorem qualifies_joined {w : List Char} {segments : List (List Char)} {rest : List Char}
    (hsegments : ∀ v ∈ w :: segments, IsSegment v) (hrest : ¬continues rest) :
    Qualifies (joined (w :: segments)) (joined (w :: segments) ++ rest) := by
  have hw := (hsegments w List.mem_cons_self).isWordChar
  induction segments generalizing w with
  | nil =>
    rw [joined, List.intercalate_singleton]
    exact .word (isLongest_run hw (not_isWordChar_of_not_continues hrest))
  | cons v segments ih =>
    rw [List.forall_mem_cons] at hsegments
    have hv := List.forall_mem_cons.1 hsegments.2
    rw [joined_cons, List.append_assoc, List.cons_append]
    refine .segment (isLongest_run hw ?_) (hv.1.startsWithLetter segments rest)
      (ih hsegments.2 hv.1.isWordChar)
    rintro _ ⟨⟩
    decide

/-- Segments with nothing behind them that goes on with a name are the longest name. -/
theorem isLongest_joined {w : List Char} {segments : List (List Char)} {rest : List Char}
    (hsegments : ∀ v ∈ w :: segments, IsSegment v) (hrest : ¬continues rest) :
    IsLongest (Qualifies · (joined (w :: segments) ++ rest)) (joined (w :: segments))
      (joined (w :: segments) ++ rest) where
  isPrefix := List.prefix_append _ rest
  holds := qualifies_joined hsegments hrest
  longest := by
    intro v _ hv
    have hread := hv.prefix_qualified
    rw [qualified_joined hsegments hrest] at hread
    exact hread.length_le

end Word

/-! ## Tokens -/

/-- Whether the characters make a reserved word. -/
def Lexicon.IsReserved (w : List Char) : Prop := ∃ kind, (String.ofList w, kind) ∈ words

/-- Of a text that begins with a letter, `w` is the reserved word that the first word of
    the text is, or else the longest name there is. -/
def TakesWord (kind : TokenKind) (w text : List Char) : Prop :=
  ∃ r, Word.IsFirst r text ∧
    (Lexicon.IsReserved r ↔ (String.ofList w, kind) ∈ Lexicon.words ∧ w = r) ∧
    (¬Lexicon.IsReserved r → kind = .ident ∧ IsLongest (Word.Qualifies · text) w text)

/-- A token of the kind takes `w` off the text, and there is not more for it there. -/
structure TakesLongest (kind : TokenKind) (w text : List Char) : Prop where
  isPrefix : w <+: text
  symbol : (∀ c ∈ text.head?, ¬c.isAlpha ∧ ¬c.isDigit ∧ c ≠ '"') →
    (String.ofList w, kind) ∈ Lexicon.symbols ∧
      IsLongest (fun v => ∃ e ∈ Lexicon.symbols, e.1.toList = v) w text
  word : Word.startsWithLetter text → TakesWord kind w text
  number : kind = .number → IsLongest (fun v => ∀ d ∈ v, d.isDigit) w text
  not_opens : ¬Comment.Opens text

/-- What begins with a character of some class opens no comment. -/
theorem Comment.not_opens_of_class {p : Char → Bool} {c : Char} (cs : List Char) (hc : p c)
    (hslash : ¬p '/') (hdash : ¬p '-') : ¬Opens (c :: cs) := by
  rintro (⟨_, h⟩ | ⟨_, h⟩ | ⟨_, h⟩) <;> cases h
  · exact hslash hc
  · exact hdash hc
  · exact hslash hc

/-- Of what begins with a letter, a token takes as much as there is if its word or name
    does. -/
theorem TakesLongest.of_letter {kind : TokenKind} {w text : List Char}
    (hletter : Word.startsWithLetter text) (hpre : w <+: text) (hkind : kind ≠ .number)
    (hword : TakesWord kind w text) : TakesLongest kind w text := by
  rcases text with _ | ⟨c, cs⟩
  · cases hletter
  exact ⟨hpre, fun h => absurd hletter (h c rfl).1, fun _ => hword, fun h => absurd h hkind,
    Comment.not_opens_of_class (p := Char.isAlpha) cs hletter (by decide) (by decide)⟩

/-- A token takes as much as there is for it where it is written. -/
theorem Lexeme.IsWritten.takesLongest {kind : TokenKind} {payload : Option Payload}
    {w rest : List Char} (h : IsWritten (.token kind payload) w rest) :
    TakesLongest kind w (w ++ rest) := by
  have hpre := List.prefix_append w rest
  cases h with
  | @word w _ _ hmem hrest =>
    have hwords : ∀ e ∈ Lexicon.words, Word.IsSegment e.1.toList ∧ e.2 ≠ .number := by decide
    obtain ⟨hw, hkind⟩ := hwords _ hmem
    have hletter := hw.startsWithLetter [] rest
    rw [Word.joined, List.intercalate_singleton] at hletter
    have hmem : (String.ofList w.toList, kind) ∈ Lexicon.words := by rwa [String.ofList_toList]
    exact .of_letter hletter hpre hkind ⟨_, isLongest_run hw.isWordChar hrest,
      iff_of_true ⟨kind, hmem⟩ ⟨hmem, rfl⟩, fun h => absurd ⟨kind, hmem⟩ h⟩
  | @symbol s _ _ hmem hlongest hopens =>
    have hsymbols : ∀ e ∈ Lexicon.symbols, e.2 ≠ .number := by decide
    have hhead := opensSymbol hmem hopens
    refine ⟨hpre, fun _ => ⟨by rwa [String.ofList_toList], hpre, ⟨_, hmem, rfl⟩, ?_⟩,
      fun hletter => ?_, fun hkind => absurd hkind (hsymbols _ hmem), hopens⟩
    · rintro _ hpre ⟨e, he, rfl⟩
      rw [String.length_toList, String.length_toList]
      exact hlongest e he hpre
    · generalize s.toList ++ rest = text at hhead hletter
      rcases text with _ | ⟨c, cs⟩
      · exact hhead.elim
      · exact absurd hletter hhead.2.2.2.2.2
  | name hlabel hrest =>
    obtain ⟨r, segments, hlabel, hsegments, hword⟩ := hlabel
    have hr := (List.forall_mem_cons.1 hsegments).1
    have hletter := hr.startsWithLetter segments rest
    have hfirst : Word.IsFirst r (Word.joined (r :: segments) ++ rest) := by
      have hrun := isLongest_takeWhile Word.isWordChar (Word.joined (r :: segments) ++ rest)
      rwa [Word.takeWhile_joined segments hr (Word.not_isWordChar_of_not_continues hrest)] at hrun
    have hreserved : ¬Lexicon.IsReserved r := by
      rintro ⟨kind, hkind⟩
      rw [Lexicon.word?_eq_some_iff.2 hkind] at hword
      cases hword
    have hwords : ∀ e ∈ Lexicon.words, e.2 ≠ .ident := by decide
    rw [hlabel] at hpre ⊢
    exact .of_letter hletter hpre (by decide) ⟨r, hfirst,
      iff_of_false hreserved fun h => absurd rfl (hwords _ h.1),
      fun _ => ⟨rfl, Word.isLongest_joined hsegments hrest⟩⟩
  | number hne hdigits hrest _ =>
    obtain ⟨c, digits, rfl⟩ := List.exists_cons_of_ne_nil hne
    have hc := hdigits c List.mem_cons_self
    exact ⟨hpre, fun h => absurd hc (h c rfl).2.1,
      fun hletter => absurd hc (not_isDigit_of_isAlpha hletter),
      fun _ => isLongest_run hdigits hrest,
      Comment.not_opens_of_class _ hc (by decide) (by decide)⟩
  | literal _ =>
    refine ⟨hpre, fun h => absurd rfl (h '"' rfl).2.2, fun hletter => ?_, fun hkind => ?_,
      Comment.not_opens_of_class (p := (· = '"')) _ rfl (by decide) (by decide)⟩
    · cases hletter
    · cases hkind

/-! ## Tokens of a text -/

/-- In a text without faults each token takes as much as there is for it at the byte of
    the text where it begins. -/
theorem tokenize_takes_longest {text : String} {ts : List Token} (h : tokenize text = .ok ts) :
    ∃ gs, Segmentation text gs ∧ gs.map Segment.token = ts ∧
      ∀ g ∈ gs, ∃ before behind : String, text = before ++ behind ∧
        g.start = before.rawEndPos ∧ TakesLongest g.token.kind g.text.toList behind.toList := by
  obtain ⟨mark, body, gs, rfl, hmark, hgs, hmap⟩ := exists_segmented h
  refine ⟨gs, hgs.segmentation hmark, hmap, fun g hg => ?_⟩
  obtain ⟨init, rest, hbody, hstart, hw⟩ := hgs.isWrittenIn g hg
  refine ⟨mark ++ String.ofList init, g.text ++ String.ofList rest, ?_, ?_, ?_⟩
  · rw [String.append_assoc, ← String.ofList_toList (s := body), hbody]
    simp
  · rw [hstart, rawEndPos_append]
  · rw [String.toList_append, String.toList_ofList]
    exact hw.takesLongest

/-- Symbols that overlap, names with a reserved word in them, a reserved word in front of
    a slash, a number right before a word, and a comment right behind one. -/
theorem tokenize_takes_longest_of_each_sort :
    let text := "<=>=<<<: a/b/in/1 in/x 12ab//c\n->>>>-"
    let t (kind : TokenKind) (line first last : Nat) : Token :=
      ⟨kind, none, ⟨none, ⟨line, first⟩, ⟨line, last⟩⟩⟩
    let name (label : String) (first last : Nat) : Token :=
      (t .ident 1 first last).withPayload (some (.label label))
    let number (value : Int64) (first last : Nat) : Token :=
      (t .number 1 first last).withPayload (some (.number value))
    let ts := [t (.symbol .iff) 1 1 3, t (.relation .atMost) 1 4 5, t (.symbol .shiftLeft) 1 6 7,
      t .colon 1 8 8, name "a/b/in" 10 15, t .slash 1 16 16, number 1 17 17,
      t (.relation .subset) 1 19 20, t .slash 1 21 21, name "x" 22 22, number 12 24 25,
      name "ab" 26 27, t .bareArrow 2 1 2, t (.symbol .shiftRightZero) 2 3 5, t .minus 2 6 6]
    tokenize text = .ok ts ∧ ∃ gs, Segmentation text gs ∧ gs.map Segment.token = ts ∧
      ∀ g ∈ gs, ∃ before behind : String, text = before ++ behind ∧
        g.start = before.rawEndPos ∧ TakesLongest g.token.kind g.text.toList behind.toList := by
  intro text t name number ts
  have h : tokenize text = .ok ts := by decide +kernel
  exact ⟨h, tokenize_takes_longest h⟩

end AlloyLexical

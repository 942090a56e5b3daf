import AlloyLexical.Lexeme
import AlloyLexical.Proofs.Lexeme.Quoted
import AlloyLexical.Proofs.Lexeme.Word
import Mathlib.Data.List.Infix
import Mathlib.Data.List.Nodup

/-!
# The grammar of lexemes

What a lexeme looks like can be said without cutting one off a text, by the text
it is written in and by what must not come behind that (`Lexeme.IsWritten`):

* comments that are opened by `//` or `--` have no line feed in them and go on to
  the next one, or to the end of the text; those that are opened by `/*` have
  their first `*/` at their end;
* a symbol is the longest one there, and opens no comment;
* a reserved word, a name or a number does not go on behind its end;
* a literal is made of units between two quotes.

In the same way, `Lexeme.Offends` says what a text begins with that is no lexeme
at all. Together these are all there is: a lexeme is cut off a text just where it
is written there (`Lexeme.cut_of_isWritten`, `Lexeme.isWritten_cut`), and a fault
just where the text offends (`Lexeme.cut_of_offends`, `Lexeme.offends_of_cut`).
-/

namespace AlloyLexical

/-! ## Comments -/

namespace Comment

/-- Whether a comment is opened at the head of a text. -/
def Opens (text : List Char) : Prop :=
  ['/', '/'] <+: text ∨ ['-', '-'] <+: text ∨ ['/', '*'] <+: text

instance : DecidablePred Opens := fun text =>
  inferInstanceAs (Decidable (['/', '/'] <+: text ∨ ['-', '-'] <+: text ∨ ['/', '*'] <+: text))

theorem opens_cons_iff {c : Char} {cs : List Char} :
    Opens (c :: cs) ↔
      ((c = '/' ∨ c = '-') ∧ cs.head? = some c) ∨ (c = '/' ∧ cs.head? = some '*') := by
  simp only [Opens, List.cons_prefix_cons, List.singleton_prefix_iff_head?_eq_some]
  constructor
  · rintro (⟨rfl, h⟩ | ⟨rfl, h⟩ | ⟨rfl, h⟩)
    · exact .inl ⟨.inl rfl, h⟩
    · exact .inl ⟨.inr rfl, h⟩
    · exact .inr ⟨rfl, h⟩
  · rintro (⟨rfl | rfl, h⟩ | ⟨rfl, h⟩)
    · exact .inl ⟨rfl, h⟩
    · exact .inr (.inl ⟨rfl, h⟩)
    · exact .inr (.inr ⟨rfl, h⟩)

theorem close?_eq_none_iff (cs : List Char) : close? cs = none ↔ ¬['*', '/'] <:+: cs := by
  fun_induction close? cs with
  | case1 cs => simp [List.infix_cons_iff]
  | case2 c cs hne ih =>
    have hpre : ¬['*', '/'] <+: c :: cs := by
      rintro ⟨more, hmore⟩
      obtain ⟨rfl, rfl⟩ := List.cons.inj hmore
      exact hne more rfl rfl
    rw [Option.map_eq_none_iff, ih, List.infix_cons_iff]
    simp [hpre]
  | case3 => simp

/-- A comment is closed by the first `*/`, whatever is behind it. -/
theorem close?_of_not_infix {body : List Char} (h : ¬['*', '/'] <:+: body ++ ['*'])
    (rest : List Char) :
    close? (body ++ '*' :: '/' :: rest) = some (body ++ ['*', '/'], rest) := by
  induction body with
  | nil => rfl
  | cons c body ih =>
    rw [List.cons_append, List.infix_cons_iff, not_or] at h
    rw [List.cons_append, close?, ih h.2]
    · rfl
    · -- Here the comment would be closed too early.
      rintro more rfl hbody
      rcases body with _ | ⟨d, body⟩
      · cases hbody
      · obtain ⟨rfl, -⟩ := List.cons.inj hbody
        exact h.1 ⟨body ++ ['*'], rfl⟩

theorem exists_of_close? {cs text rest : List Char} (h : close? cs = some (text, rest)) :
    ∃ body, text = body ++ ['*', '/'] ∧ ¬['*', '/'] <:+: body ++ ['*'] := by
  fun_induction close? cs generalizing text with
  | case1 cs =>
    obtain ⟨rfl, -⟩ : ['*', '/'] = text ∧ cs = rest := by simpa using h
    exact ⟨[], rfl, by decide⟩
  | case2 c cs hne ih =>
    obtain ⟨⟨text', rest'⟩, hclose, heq⟩ := Option.map_eq_some_iff.1 h
    obtain ⟨rfl, rfl⟩ : c :: text' = text ∧ rest' = rest := by simpa using heq
    obtain ⟨body, rfl, hbody⟩ := ih hclose
    refine ⟨c :: body, rfl, ?_⟩
    rw [List.cons_append, List.infix_cons_iff, not_or]
    refine ⟨?_, hbody⟩
    rintro ⟨more, hmore⟩
    obtain ⟨rfl, hbody⟩ := List.cons.inj hmore
    rcases body with _ | ⟨d, body⟩
    · cases hbody
    · obtain ⟨rfl, -⟩ := List.cons.inj hbody
      exact hne _ rfl (append_of_close? hclose).symm
  | case3 => cases h

end Comment

/-! ## Symbols and reserved words -/

namespace Lexicon

theorem word?_eq_some_iff {w : List Char} {kind : TokenKind} :
    word? w = some kind ↔ (String.ofList w, kind) ∈ words := by
  constructor
  · intro h
    obtain ⟨l, l', hwords, -⟩ := List.lookup_eq_some_iff.1 h
    rw [hwords]
    exact List.mem_append_right l List.mem_cons_self
  · intro h
    have hwords : ∀ e ∈ words, words.lookup e.1 = some e.2 := by decide
    exact hwords _ h

/-- The symbol that is found is the longest one that the text begins with. -/
theorem longest_of_symbol? {text s : List Char} {kind : TokenKind}
    (h : symbol? text = some (s, kind)) : (String.ofList s, kind) ∈ symbols ∧ s <+: text ∧
      ∀ e ∈ symbols, e.1.toList <+: text → e.1.length ≤ s.length := by
  obtain ⟨l, ⟨spelling, kind'⟩, l', hsymbols, hif, hl⟩ := List.findSome?_eq_some_iff.1 h
  have hsorted := symbols_sorted
  rw [hsymbols, List.pairwise_append, List.pairwise_cons] at hsorted
  by_cases hpre : spelling.toList.isPrefixOf text
  · obtain ⟨rfl, rfl⟩ : spelling.toList = s ∧ kind' = kind := by simpa [hpre] using hif
    rw [hsymbols, String.ofList_toList, List.forall_mem_append, List.forall_mem_cons,
      String.length_toList]
    refine ⟨by simp, List.isPrefixOf_iff_prefix.1 hpre, fun e he hmatch => ?_,
      fun _ => Nat.le_refl _, fun e he _ => hsorted.2.1.1 e he⟩
    -- What comes earlier in the table did not match.
    have hskipped := hl e he
    simp only [List.isPrefixOf_iff_prefix.2 hmatch, if_true] at hskipped
    cases hskipped
  · simp [hpre] at hif

theorem eq_of_mem_symbols {s : String} {kind kind' : TokenKind} (h : (s, kind) ∈ symbols)
    (h' : (s, kind') ∈ symbols) : kind = kind' := by
  have hnodup : (symbols.map Prod.fst).Nodup := by decide
  exact (Prod.mk.inj (List.inj_on_of_nodup_map hnodup h h' rfl)).2

/-- The longest symbol that a text begins with is the one that is found. -/
theorem symbol?_of_longest {text : List Char} {s : String} {kind : TokenKind}
    (hmem : (s, kind) ∈ symbols) (hpre : s.toList <+: text)
    (hlongest : ∀ e ∈ symbols, e.1.toList <+: text → e.1.length ≤ s.length) :
    symbol? text = some (s.toList, kind) := by
  have hsome : (symbol? text).isSome := by
    rw [symbol?, List.findSome?_isSome_iff]
    exact ⟨_, hmem, by simp [List.isPrefixOf_iff_prefix.2 hpre]⟩
  obtain ⟨⟨s', kind'⟩, hfound⟩ := Option.isSome_iff_exists.1 hsome
  obtain ⟨hmem', hpre', hlongest'⟩ := longest_of_symbol? hfound
  -- Both are as long as the other, and so they are the same.
  have hle : s'.length ≤ s.toList.length := by
    have := hlongest _ hmem' (by rwa [String.toList_ofList])
    rwa [← String.length_toList, String.toList_ofList, ← String.length_toList] at this
  have hle' := hlongest' _ hmem hpre
  rw [← String.length_toList] at hle'
  obtain rfl : s' = s.toList :=
    (List.prefix_of_prefix_length_le hpre' hpre hle).eq_of_length (Nat.le_antisymm hle hle')
  rw [String.ofList_toList] at hmem'
  rw [hfound, eq_of_mem_symbols hmem hmem']

/-- A text begins with no symbol if its first character begins none. -/
theorem symbol?_eq_none_iff (c : Char) (cs : List Char) :
    symbol? (c :: cs) = none ↔ ∀ e ∈ symbols, e.1.toList.head? ≠ some c := by
  rw [symbol?, List.findSome?_eq_none_iff]
  constructor
  · -- Every character that begins a symbol is one.
    have hsingle : ∀ e ∈ symbols, ∃ e' ∈ symbols, e'.1.toList = e.1.toList.take 1 := by decide
    intro h e he hhead
    obtain ⟨s, hs⟩ := List.head?_eq_some_iff.1 hhead
    obtain ⟨e', he', hc⟩ := hsingle e he
    have hskipped := h e' he'
    simp [hc, hs] at hskipped
  · intro h e he
    have hne : ∀ e ∈ symbols, e.1.toList ≠ [] := by decide
    have hpre : ¬e.1.toList.isPrefixOf (c :: cs) := by
      rw [List.isPrefixOf_iff_prefix, List.prefix_cons_iff]
      rintro (hnil | ⟨t, ht, -⟩)
      · exact hne e he hnil
      · exact h e he (by rw [ht]; rfl)
    simp [hpre]

end Lexicon

/-- A *name* is a label of segments with slashes between them, of which the
    first one is not reserved. -/
def Word.IsName (label : String) : Prop :=
  ∃ w segments, label.toList = joined (w :: segments) ∧ (∀ v ∈ w :: segments, IsSegment v) ∧
    Lexicon.word? w = none

namespace Lexeme

/-! ## Cutting off lexemes by their first character -/

/-- Whether a text begins with what may be a symbol, and with no comment. -/
def OpensSymbol : List Char → Prop
  | [] => False
  | c :: cs => ¬isBlank c ∧ ¬((c = '/' ∨ c = '-') ∧ cs.head? = some c) ∧
      ¬(c = '/' ∧ cs.head? = some '*') ∧ c ≠ '"' ∧ ¬c.isDigit ∧ ¬c.isAlpha

instance : DecidablePred OpensSymbol
  | [] => isFalse id
  | c :: cs => inferInstanceAs (Decidable (¬isBlank c ∧ ¬((c = '/' ∨ c = '-') ∧ cs.head? = some c) ∧
      ¬(c = '/' ∧ cs.head? = some '*') ∧ c ≠ '"' ∧ ¬c.isDigit ∧ ¬c.isAlpha))

theorem cut_of_opensSymbol {c : Char} {cs : List Char} (h : OpensSymbol (c :: cs)) :
    cut c cs = cutSymbol c cs := by
  obtain ⟨hblank, hline, hblock, hquote, hdigit, halpha⟩ := h
  rw [cut, if_neg hblank, if_neg hline, if_neg hblock, if_neg hquote, if_neg hdigit, if_neg halpha]

/-- What begins with a character of some class is no comment, nor a literal. -/
theorem cut_of_class {p : Char → Bool} {c : Char} (cs : List Char) (hc : p c)
    (hp : [' ', '\t', '\r', '\n', '\x0c', '/', '-', '"'].all (!p ·)) :
    cut c cs = if c.isDigit then cutNumber (c :: cs)
      else if c.isAlpha then cutWord (c :: cs) else cutSymbol c cs := by
  have hne {d : Char} (hd : p d = false) : c ≠ d := by
    rintro rfl
    rw [hc] at hd
    cases hd
  simp only [List.all_cons, List.all_nil, Bool.and_true, Bool.and_eq_true, Bool.not_eq_true'] at hp
  obtain ⟨hspace, htab, hreturn, hline, hfeed, hslash, hdash, hquote⟩ := hp
  simp [cut, isBlank, hne hspace, hne htab, hne hreturn, hne hline, hne hfeed, hne hslash,
    hne hdash, hne hquote]

theorem cut_of_isDigit {c : Char} (cs : List Char) (h : c.isDigit) :
    cut c cs = cutNumber (c :: cs) := by
  rw [cut_of_class cs h (by decide), if_pos h]

theorem not_isDigit_of_isAlpha {c : Char} (h : c.isAlpha) : ¬c.isDigit := by
  have hfirst : 'A'.val ≤ c.val := by
    rcases Bool.or_eq_true_iff.1 h with hupper | hlower
    · exact (of_decide_eq_true hupper).1
    · exact UInt32.le_trans (by decide) (of_decide_eq_true (Bool.and_eq_true_iff.1 hlower).1)
  intro hdigit
  have hlast : c.val ≤ '9'.val := of_decide_eq_true (Bool.and_eq_true_iff.1 hdigit).2
  exact absurd (UInt32.le_trans hfirst hlast) (by decide)

theorem cut_of_isAlpha {c : Char} (cs : List Char) (h : c.isAlpha) :
    cut c cs = cutWord (c :: cs) := by
  rw [cut_of_class cs h (by decide), if_neg (not_isDigit_of_isAlpha h), if_pos h]

/-! ## Lexemes -/

/-- The lexeme is written as `w`, where `rest` is what comes behind it. -/
inductive IsWritten : Lexeme → List Char → List Char → Prop
  | blank {c : Char} {rest : List Char} : isBlank c → IsWritten .blank [c] rest
  | lineComment {c : Char} {body rest : List Char} : c = '/' ∨ c = '-' → (∀ d ∈ body, d ≠ '\n') →
    (∀ d ∈ rest.head?, d = '\n') → IsWritten .comment (c :: c :: body) rest
  | blockComment {body rest : List Char} : ¬['*', '/'] <:+: body ++ ['*'] →
    IsWritten .comment ('/' :: '*' :: (body ++ ['*', '/'])) rest
  | word {w : String} {kind : TokenKind} {rest : List Char} : (w, kind) ∈ Lexicon.words →
    (∀ d ∈ rest.head?, ¬Word.isWordChar d) → IsWritten (.token kind none) w.toList rest
  | symbol {s : String} {kind : TokenKind} {rest : List Char} : (s, kind) ∈ Lexicon.symbols →
    (∀ e ∈ Lexicon.symbols, e.1.toList <+: s.toList ++ rest → e.1.length ≤ s.length) →
    ¬Comment.Opens (s.toList ++ rest) → IsWritten (.token kind none) s.toList rest
  | name {label : String} {rest : List Char} : Word.IsName label → ¬Word.continues rest →
    IsWritten (.token .ident (some (.label label))) label.toList rest
  | number {digits rest : List Char} {value : Int64} : digits ≠ [] → (∀ d ∈ digits, d.isDigit) →
    (∀ d ∈ rest.head?, ¬d.isDigit) → value.toInt = Nat.ofDigitChars 10 digits 0 →
    IsWritten (.token .number (some (.number value))) digits rest
  | literal {body rest : List Char} {content : String} : Quoted.Decodes body content.toList →
    IsWritten (.token .str (some (.text content))) ('"' :: (body ++ ['"'])) rest

namespace IsWritten

theorem cut_lineComment {c : Char} {body rest : List Char} (hc : c = '/' ∨ c = '-')
    (hbody : ∀ d ∈ body, d ≠ '\n') (hrest : ∀ d ∈ rest.head?, d = '\n') :
    cut c (c :: (body ++ rest)) = ⟨.comment, c :: c :: body, rest⟩ := by
  have hblank : ¬isBlank c := by rcases hc with rfl | rfl <;> decide
  have hmark : c ≠ '\n' := by rcases hc with rfl | rfl <;> decide
  have hall : ∀ d ∈ c :: c :: body, decide (d ≠ '\n') := by simpa [hmark] using hbody
  have hend : ∀ d ∈ rest.head?, ¬decide (d ≠ '\n') := fun d hd => by simp [hrest d hd]
  rw [cut, if_neg hblank, if_pos ⟨hc, rfl⟩, cutLine, ← List.cons_append, ← List.cons_append,
    takeWhile_append_of_head hall hend, dropWhile_append_of_head hall hend]

theorem cut_word {w : String} {kind : TokenKind} {rest : List Char}
    (hmem : (w, kind) ∈ Lexicon.words) (hrest : ∀ d ∈ rest.head?, ¬Word.isWordChar d) :
    ∃ c cs, w.toList ++ rest = c :: cs ∧ cut c cs = ⟨.token kind none, w.toList, rest⟩ := by
  have hsegments : ∀ e ∈ Lexicon.words, Word.IsSegment e.1.toList := by decide
  have hw : Word.IsSegment w.toList := hsegments _ hmem
  have hword : Lexicon.word? w.toList = some kind :=
    Lexicon.word?_eq_some_iff.2 (by rwa [String.ofList_toList])
  have htake := takeWhile_append_of_head hw.isWordChar hrest
  have hdrop := dropWhile_append_of_head hw.isWordChar hrest
  generalize w.toList = cs at hw hword htake hdrop ⊢
  rcases cs with _ | ⟨c, cs⟩
  · cases hw.1
  · refine ⟨c, cs ++ rest, rfl, ?_⟩
    rw [cut_of_isAlpha _ hw.1, cutWord, ← List.cons_append, htake, hdrop, hword]

theorem opensSymbol {s : String} {kind : TokenKind} {rest : List Char}
    (hmem : (s, kind) ∈ Lexicon.symbols) (hcomment : ¬Comment.Opens (s.toList ++ rest)) :
    OpensSymbol (s.toList ++ rest) := by
  have hheads : ∀ e ∈ Lexicon.symbols, e.1.toList.head?.any fun c =>
      !isBlank c && c ≠ '"' && !c.isDigit && !c.isAlpha := by decide
  obtain ⟨c, hc, hclass⟩ := (Option.any_eq_true _ _).1 (hheads _ hmem)
  obtain ⟨cs, hcs⟩ := List.head?_eq_some_iff.1 hc
  rw [hcs, List.cons_append] at hcomment ⊢
  rw [Comment.opens_cons_iff, not_or] at hcomment
  simp only [Bool.and_eq_true, Bool.not_eq_true', decide_eq_true_eq] at hclass
  obtain ⟨⟨⟨hblank, hquote⟩, hdigit⟩, halpha⟩ := hclass
  exact ⟨by simp [hblank], hcomment.1, hcomment.2, hquote, by simp [hdigit], by simp [halpha]⟩

theorem cut_symbol {s : String} {kind : TokenKind} {rest : List Char}
    (hmem : (s, kind) ∈ Lexicon.symbols)
    (hlongest : ∀ e ∈ Lexicon.symbols, e.1.toList <+: s.toList ++ rest → e.1.length ≤ s.length)
    (hcomment : ¬Comment.Opens (s.toList ++ rest)) :
    ∃ c cs, s.toList ++ rest = c :: cs ∧ cut c cs = ⟨.token kind none, s.toList, rest⟩ := by
  have hopens := opensSymbol hmem hcomment
  have hsymbol := Lexicon.symbol?_of_longest hmem (List.prefix_append _ rest) hlongest
  have hdrop : (s.toList ++ rest).drop s.toList.length = rest := List.drop_left
  rcases hcs : s.toList ++ rest with _ | ⟨c, cs⟩
  · rw [hcs] at hopens
    cases hopens
  · rw [hcs] at hopens hsymbol hdrop
    refine ⟨c, cs, rfl, ?_⟩
    rw [cut_of_opensSymbol hopens, cutSymbol, hsymbol]
    simp only [hdrop]

theorem cut_name {label : String} {rest : List Char} (h : Word.IsName label)
    (hrest : ¬Word.continues rest) : ∃ c cs, label.toList ++ rest = c :: cs ∧
      cut c cs = ⟨.token .ident (some (.label label)), label.toList, rest⟩ := by
  obtain ⟨w, segments, hlabel, hsegments, hword⟩ := h
  have hw := (List.forall_mem_cons.1 hsegments).1
  have htake := Word.takeWhile_joined segments hw (Word.not_isWordChar_of_not_continues hrest)
  have hname := Word.qualified_joined hsegments hrest
  have halpha := hw.startsWithLetter segments rest
  rw [← hlabel] at htake hname halpha
  rcases hcs : label.toList ++ rest with _ | ⟨c, cs⟩
  · rw [hcs] at halpha
    cases halpha
  · rw [hcs] at htake hname halpha
    refine ⟨c, cs, rfl, ?_⟩
    rw [cut_of_isAlpha cs halpha, cutWord, htake, hword]
    simp only [hname, String.ofList_toList]

theorem cut_number {digits : List Char} {l : Lexeme} {rest : List Char} (hne : digits ≠ [])
    (hdigits : ∀ d ∈ digits, d.isDigit) (hrest : ∀ d ∈ rest.head?, ¬d.isDigit)
    (hl : ofDigits digits = l) :
    ∃ c cs, digits ++ rest = c :: cs ∧ cut c cs = ⟨l, digits, rest⟩ := by
  have htake := takeWhile_append_of_head hdigits hrest
  have hdrop := dropWhile_append_of_head hdigits hrest
  rcases digits with _ | ⟨c, digits⟩
  · exact absurd rfl hne
  · refine ⟨c, digits ++ rest, rfl, ?_⟩
    rw [cut_of_isDigit _ (hdigits c List.mem_cons_self), cutNumber, ← List.cons_append]
    simp only [htake, hdrop, hl]

theorem ofDigits_eq {digits : List Char} {value : Int64}
    (h : value.toInt = Nat.ofDigitChars 10 digits 0) :
    ofDigits digits = .token .number (some (.number value)) := by
  have hlt : Nat.ofDigitChars 10 digits 0 < numberBound := by
    have := value.toInt_lt
    rw [h] at this
    exact Int.ofNat_lt.1 this
  have hvalue : Int64.ofNat (Nat.ofDigitChars 10 digits 0) = value := by
    rw [← Int64.toInt_inj, Int64.toInt_ofNat_of_lt hlt, h]
  rw [ofDigits]
  simp only [if_pos hlt, hvalue]

end IsWritten

/-- A lexeme is cut off as it is written. -/
theorem cut_of_isWritten {l : Lexeme} {w rest : List Char} (h : IsWritten l w rest) :
    ∃ c cs, w ++ rest = c :: cs ∧ cut c cs = ⟨l, w, rest⟩ := by
  cases h with
  | blank hc => exact ⟨_, _, rfl, if_pos hc⟩
  | lineComment hc hbody hrest => exact ⟨_, _, rfl, IsWritten.cut_lineComment hc hbody hrest⟩
  | @blockComment body _ hbody =>
    refine ⟨_, _, rfl, ?_⟩
    show cutBlock '/' '*' ((body ++ ['*', '/']) ++ rest) = _
    rw [List.append_assoc, List.cons_append, List.singleton_append, cutBlock,
      Comment.close?_of_not_infix hbody]
  | word hmem hrest => exact IsWritten.cut_word hmem hrest
  | symbol hmem hlongest hcomment => exact IsWritten.cut_symbol hmem hlongest hcomment
  | name hlabel hrest => exact IsWritten.cut_name hlabel hrest
  | number hne hdigits hrest hvalue =>
    exact IsWritten.cut_number hne hdigits hrest (IsWritten.ofDigits_eq hvalue)
  | @literal body _ content hbody =>
    refine ⟨_, _, rfl, ?_⟩
    show cutQuoted '"' ((body ++ ['"']) ++ rest) = _
    rw [List.append_assoc, List.singleton_append, cutQuoted, Quoted.read_closed hbody]
    simp only [String.ofList_toList]

/-! ## Faults -/

/-- What a text begins with that is no lexeme, and the fault that this is. -/
inductive Offends : List Char → ScanFault → Prop
  | openLiteral {body content tail : List Char} : Quoted.Decodes body content →
    Quoted.LeavesOpen tail → Offends ('"' :: (body ++ tail)) .unterminatedString
  | openComment {cs : List Char} : ¬['*', '/'] <:+: cs →
    Offends ('/' :: '*' :: cs) .unterminatedComment
  | largeNumber {digits rest : List Char} : digits ≠ [] → (∀ d ∈ digits, d.isDigit) →
    (∀ d ∈ rest.head?, ¬d.isDigit) → numberBound ≤ Nat.ofDigitChars 10 digits 0 →
    Offends (digits ++ rest) (.numberOutOfRange (String.ofList digits))
  | strayCharacter {c : Char} {cs : List Char} : ¬isBlank c → c ≠ '"' → ¬c.isDigit → ¬c.isAlpha →
    (∀ e ∈ Lexicon.symbols, e.1.toList.head? ≠ some c) →
    Offends (c :: cs) (.unexpectedCharacter c)

/-- What is cut off a text is a lexeme as it is written, or a fault where the text
    offends. -/
def Accounts (text : List Char) (cut : Cut) : Prop :=
  IsWritten cut.lexeme cut.text cut.rest ∨ ∃ f, cut.lexeme = .fault f ∧ Offends text f

theorem accounts_cutLine {c : Char} (cs : List Char) (hc : c = '/' ∨ c = '-') :
    Accounts (c :: c :: cs) (cutLine (c :: c :: cs)) := by
  have hmark : c ≠ '\n' := by rcases hc with rfl | rfl <;> decide
  have hbody : ∀ d ∈ cs.takeWhile (· ≠ '\n'), d ≠ '\n' :=
    fun d hd => by simpa using List.mem_takeWhile_imp hd
  have hrest : ∀ d ∈ (cs.dropWhile (· ≠ '\n')).head?, d = '\n' := by
    intro d hd
    simpa using not_of_head_dropWhile _ cs d hd
  left
  rw [cutLine, List.takeWhile_cons_of_pos (by simpa using hmark),
    List.takeWhile_cons_of_pos (by simpa using hmark),
    List.dropWhile_cons_of_pos (by simpa using hmark),
    List.dropWhile_cons_of_pos (by simpa using hmark)]
  exact .lineComment hc hbody hrest

theorem accounts_cutBlock (cs : List Char) :
    Accounts ('/' :: '*' :: cs) (cutBlock '/' '*' cs) := by
  rw [cutBlock]
  rcases hclose : Comment.close? cs with _ | ⟨text, rest⟩
  · exact .inr ⟨_, rfl, .openComment ((Comment.close?_eq_none_iff cs).1 hclose)⟩
  · obtain ⟨body, rfl, hbody⟩ := Comment.exists_of_close? hclose
    exact .inl (.blockComment hbody)

theorem accounts_cutQuoted (cs : List Char) : Accounts ('"' :: cs) (cutQuoted '"' cs) := by
  obtain ⟨body, content, tail, rfl, hbody, htail⟩ := Quoted.exists_decodes cs
  rw [cutQuoted]
  rcases htail with hclosed | hopen
  · obtain ⟨rest, rfl⟩ := List.head?_eq_some_iff.1 hclosed
    rw [Quoted.read_closed hbody]
    exact .inl (.literal (by rwa [String.toList_ofList]))
  · simp only [Quoted.content_of_leavesOpen hbody hopen]
    exact .inr ⟨_, rfl, .openLiteral hbody hopen⟩

theorem accounts_cutNumber {c : Char} (cs : List Char) (hc : c.isDigit) :
    Accounts (c :: cs) (cutNumber (c :: cs)) := by
  have hne : (c :: cs).takeWhile Char.isDigit ≠ [] := by
    rw [List.takeWhile_cons_of_pos hc]
    exact List.cons_ne_nil _ _
  have hdigits : ∀ d ∈ (c :: cs).takeWhile Char.isDigit, d.isDigit :=
    fun d hd => List.mem_takeWhile_imp hd
  have hrest := not_of_head_dropWhile Char.isDigit (c :: cs)
  have htext := List.takeWhile_append_dropWhile (p := Char.isDigit) (l := c :: cs)
  rw [cutNumber, ofDigits]
  generalize (c :: cs).takeWhile Char.isDigit = digits at *
  generalize (c :: cs).dropWhile Char.isDigit = rest at *
  by_cases hlt : Nat.ofDigitChars 10 digits 0 < numberBound
  · left
    simp only [if_pos hlt]
    exact .number hne hdigits hrest (Int64.toInt_ofNat_of_lt hlt)
  · right
    simp only [if_neg hlt]
    rw [← htext]
    exact ⟨_, rfl, .largeNumber hne hdigits hrest (Nat.le_of_not_lt hlt)⟩

theorem accounts_cutWord {c : Char} (cs : List Char) (hc : c.isAlpha) :
    Accounts (c :: cs) (cutWord (c :: cs)) := by
  left
  rw [cutWord]
  simp only
  split
  · next hword =>
    have hwritten := IsWritten.word (Lexicon.word?_eq_some_iff.1 hword)
      (not_of_head_dropWhile Word.isWordChar (c :: cs))
    rwa [String.toList_ofList] at hwritten
  · next hword =>
    obtain ⟨segments, hname, hsegments⟩ := Word.exists_segments (c :: cs)
    have hlabel : Word.IsName (String.ofList (Word.qualified (c :: cs)).1) := by
      refine ⟨_, segments, ?_, List.forall_mem_cons.2 ⟨?_, hsegments⟩, hword⟩
      · rw [String.toList_ofList, hname]
      · exact Word.isSegment_takeWhile hc
    have hwritten := IsWritten.name hlabel (Word.not_continues_qualified (c :: cs))
    rwa [String.toList_ofList] at hwritten

theorem accounts_cutSymbol {c : Char} {cs : List Char} (h : OpensSymbol (c :: cs)) :
    Accounts (c :: cs) (cutSymbol c cs) := by
  obtain ⟨hblank, hline, hblock, hquote, hdigit, halpha⟩ := h
  rw [cutSymbol]
  split
  · next s kind hsymbol =>
    obtain ⟨hmem, ⟨rest, hrest⟩, hlongest⟩ := Lexicon.longest_of_symbol? hsymbol
    have hcomment : ¬Comment.Opens (c :: cs) := by
      rw [Comment.opens_cons_iff, not_or]
      exact ⟨hline, hblock⟩
    rw [← hrest] at hlongest hcomment ⊢
    rw [List.drop_left]
    have hwritten := @IsWritten.symbol _ kind rest hmem
    rw [String.toList_ofList, ← String.length_toList, String.toList_ofList] at hwritten
    exact .inl (hwritten hlongest hcomment)
  · next hsymbol =>
    exact .inr ⟨_, rfl, .strayCharacter hblank hquote hdigit halpha
      ((Lexicon.symbol?_eq_none_iff c cs).1 hsymbol)⟩

/-- Every text begins with a lexeme as it is written, or offends. -/
theorem accounts_cut (c : Char) (cs : List Char) : Accounts (c :: cs) (cut c cs) := by
  rw [cut]
  split
  · next hc => exact .inl (.blank hc)
  next hblank =>
  split
  · next hc =>
    obtain ⟨cs, rfl⟩ := List.head?_eq_some_iff.1 hc.2
    exact accounts_cutLine cs hc.1
  next hline =>
  split
  · next hc =>
    obtain ⟨rfl, hhead⟩ := hc
    obtain ⟨cs, rfl⟩ := List.head?_eq_some_iff.1 hhead
    exact accounts_cutBlock cs
  next hblock =>
  split
  · next hc =>
    rw [hc]
    exact accounts_cutQuoted cs
  next hquote =>
  split
  · next hc => exact accounts_cutNumber cs hc
  next hdigit =>
  split
  · next hc => exact accounts_cutWord cs hc
  next halpha => exact accounts_cutSymbol ⟨hblank, hline, hblock, hquote, hdigit, halpha⟩

/-- What is cut off a text without a fault is a lexeme as it is written. -/
theorem isWritten_cut {c : Char} {cs : List Char} (h : ∀ f, (cut c cs).lexeme ≠ .fault f) :
    IsWritten (cut c cs).lexeme (cut c cs).text (cut c cs).rest :=
  (accounts_cut c cs).resolve_right fun ⟨f, hf, _⟩ => h f hf

theorem IsWritten.ne_fault {f : ScanFault} {w rest : List Char} (h : IsWritten (.fault f) w rest) :
    False := by
  cases h

theorem offends_of_cut {c : Char} {cs : List Char} {f : ScanFault}
    (h : (cut c cs).lexeme = .fault f) : Offends (c :: cs) f := by
  rcases accounts_cut c cs with hwritten | ⟨f', hf', hoffends⟩
  · rw [h] at hwritten
    exact hwritten.ne_fault.elim
  · rw [h] at hf'
    cases hf'
    exact hoffends

theorem cut_of_strayCharacter {c : Char} (cs : List Char) (hblank : ¬isBlank c) (hquote : c ≠ '"')
    (hdigit : ¬c.isDigit) (halpha : ¬c.isAlpha)
    (hsymbol : ∀ e ∈ Lexicon.symbols, e.1.toList.head? ≠ some c) :
    cut c cs = ⟨.fault (.unexpectedCharacter c), [], c :: cs⟩ := by
  have hslash : c ≠ '/' := by
    rintro rfl
    exact hsymbol ("/", .slash) (by decide) rfl
  have hdash : c ≠ '-' := by
    rintro rfl
    exact hsymbol ("-", .minus) (by decide) rfl
  have hopens : OpensSymbol (c :: cs) :=
    ⟨hblank, fun hc => hc.1.elim hslash hdash, fun hc => hslash hc.1, hquote, hdigit, halpha⟩
  rw [cut_of_opensSymbol hopens, cutSymbol, (Lexicon.symbol?_eq_none_iff c cs).2 hsymbol]

/-- Where a text offends, the fault is cut off. A number that is too large is cut
    off with all of its digits. -/
theorem cut_of_offends {text : List Char} {f : ScanFault} (h : Offends text f) :
    ∃ c cs, text = c :: cs ∧ (cut c cs).lexeme = .fault f ∧
      ∀ digits, f = .numberOutOfRange digits → (cut c cs).text = digits.toList := by
  cases h with
  | @openLiteral body content tail hbody htail =>
    refine ⟨_, _, rfl, ?_, fun _ hf => ScanFault.noConfusion hf⟩
    show (cutQuoted '"' (body ++ tail)).lexeme = _
    simp only [cutQuoted, Quoted.content_of_leavesOpen hbody htail]
  | @openComment cs hopen =>
    refine ⟨_, _, rfl, ?_, fun _ hf => ScanFault.noConfusion hf⟩
    show (cutBlock '/' '*' cs).lexeme = _
    rw [cutBlock, (Comment.close?_eq_none_iff cs).2 hopen]
  | @largeNumber digits rest hne hdigits hrest hlarge =>
    have hfault : ofDigits digits = .fault (.numberOutOfRange (String.ofList digits)) := by
      rw [ofDigits]
      exact if_neg (Nat.not_lt.2 hlarge)
    obtain ⟨c, cs, hcs, hcut⟩ := IsWritten.cut_number hne hdigits hrest hfault
    refine ⟨c, cs, hcs, by rw [hcut], ?_⟩
    rintro _ ⟨⟩
    rw [hcut, String.toList_ofList]
  | @strayCharacter c cs hblank hquote hdigit halpha hsymbol =>
    refine ⟨c, cs, rfl, ?_, fun _ hf => ScanFault.noConfusion hf⟩
    rw [cut_of_strayCharacter cs hblank hquote hdigit halpha hsymbol]

/-- A character that begins nothing is not cut off. -/
theorem cut_of_unexpected {c d : Char} {cs : List Char}
    (h : (cut c cs).lexeme = .fault (.unexpectedCharacter d)) :
    cut c cs = ⟨.fault (.unexpectedCharacter d), [], c :: cs⟩ := by
  have hoffends := offends_of_cut h
  generalize htext : c :: cs = text at hoffends
  cases hoffends with
  | strayCharacter hblank hquote hdigit halpha hsymbol =>
    obtain ⟨rfl, rfl⟩ := List.cons.inj htext
    exact cut_of_strayCharacter cs hblank hquote hdigit halpha hsymbol

end Lexeme

end AlloyLexical

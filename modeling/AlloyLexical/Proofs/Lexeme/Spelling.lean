import AlloyLexical.Proofs.Lexeme.Append

/-!
# Spelling tokens

A token can be spelled in such a way that it is read again, unless the filter
has made it. `Token.Spellable` says which tokens these are,

* symbols and reserved words,
* names, whose first segment is not a reserved word,
* numbers that are not negative,
* texts, whatever they contain,

and `Token.spell` spells them. The spelling of a token is cut off again as that
token, if there is nothing behind it or a blank (`Token.cut_spell`); and tokens
that are cut off a text are spellable (`Token.spellable_of_cut`).
-/

namespace AlloyLexical

/-! ## Tokens and spellings -/

/-- Whether the scanner makes tokens of the kind of one word or symbol each. -/
def TokenKind.isPlain : TokenKind → Bool
  | symbol _ | keyword _ | quantifier _ | relation _ | bareArrow => true
  | _ => false

namespace Token

/-- The kinds and payloads of tokens that can be spelled. -/
inductive Spellable : TokenKind → Option Payload → Prop
  | plain {kind : TokenKind} : kind.isPlain → Spellable kind none
  | name {label : String} : Word.IsName label → Spellable .ident (some (.label label))
  | number {value : Int64} : 0 ≤ value → Spellable .number (some (.number value))
  | text (content : String) : Spellable .str (some (.text content))

theorem Spellable.ne_eof {kind : TokenKind} {payload : Option Payload}
    (h : Spellable kind payload) : kind ≠ .eof := by
  rintro rfl
  cases h with
  | plain hkind => cases hkind

/-- How a token of the given kind and payload is spelled: a name by its label, a
    number in decimals, a text between quotes, anything else as its kind is
    written. -/
def spell : TokenKind → Option Payload → String
  | .ident, some (.label label) => label
  | .number, some (.number value) => toString value
  | .str, some (.text content) => String.ofList ('"' :: (Quoted.encode content.toList ++ ['"']))
  | kind, _ => kind.spelling

end Token

/-! ## What stands behind a spelling -/

/-- Whether the text is at its end or goes on with a blank. -/
def SetsApart (rest : List Char) : Prop := ∀ c ∈ rest.head?, c = ' '

theorem SetsApart.startsBlank {rest : List Char} (h : SetsApart rest) :
    Lexeme.StartsBlank rest := by
  intro c hc
  rw [h c hc]
  rfl

/-! ## Cutting off a spelling -/

namespace Token

open Lexeme

theorem spell_plain {kind : TokenKind} : spell kind none = kind.spelling := by
  cases kind <;> rfl

/-- Every plain kind is in the tables of words and symbols as it is written. -/
theorem plain_cases {kind : TokenKind} (h : kind.isPlain) :
    (kind.spelling, kind) ∈ Lexicon.words ∨ (kind.spelling, kind) ∈ Lexicon.symbols := by
  rw [TokenKind.isPlain.eq_def] at h
  split at h
  · next s => cases s <;> exact .inr (by decide)
  · next w => cases w <;> exact .inl (by decide)
  · next q => cases q <;> exact .inl (by decide)
  · next r => cases r <;> decide
  · decide
  · cases h

/-- What a text that begins with the spelling of a token is cut into. -/
def CutsOff (kind : TokenKind) (payload : Option Payload) (w rest : List Char) : Prop :=
  ∃ c cs, w ++ rest = c :: cs ∧ cut c cs = ⟨.token kind payload, w, rest⟩

theorem toList_toString {value : Int64} (h : 0 ≤ value) :
    (toString value).toList = Nat.toDigits 10 value.toNatClampNeg := by
  have hvalue : value.toInt = value.toNatClampNeg := (value.cast_toNatClampNeg h).symm
  rw [← Nat.toList_repr, show toString value = value.toInt.repr from rfl, hvalue]
  rfl

theorem isWritten_plain {kind : TokenKind} (h : kind.isPlain) :
    IsWritten (.token kind none) kind.spelling.toList [] := by
  rcases plain_cases h with hmem | hmem
  · exact .word hmem nofun
  · have hcomment : ∀ e ∈ Lexicon.symbols, ¬Comment.Opens e.1.toList := by decide
    refine .symbol hmem (fun e _ hpre => ?_) ?_
    · rw [List.append_nil] at hpre
      rw [← String.length_toList, ← String.length_toList]
      exact hpre.length_le
    · rw [List.append_nil]
      exact hcomment _ hmem

theorem isWritten_number {value : Int64} (h : 0 ≤ value) :
    IsWritten (.token .number (some (.number value))) (toString value).toList [] := by
  rw [toList_toString h]
  refine .number Nat.toDigits_ne_nil ?_ nofun ?_
  · exact fun c hc => Nat.isDigit_of_mem_toDigits (by decide) (by decide) hc
  · rw [Nat.ofDigitChars_ten_toDigits]
    exact (value.cast_toNatClampNeg h).symm

/-- A token is written as it is spelled. -/
theorem isWritten_spell {kind : TokenKind} {payload : Option Payload}
    (h : Spellable kind payload) :
    IsWritten (.token kind payload) (spell kind payload).toList [] := by
  rcases h with hkind | hlabel | hvalue | content
  · rw [spell_plain]
    exact isWritten_plain hkind
  · exact .name hlabel nofun
  · exact isWritten_number hvalue
  · rw [spell, String.toList_ofList]
    exact .literal (Quoted.decodes_encode content.toList)

/-- The spelling of a token is cut off as that token. -/
theorem cut_spell {kind : TokenKind} {payload : Option Payload} {rest : List Char}
    (h : Spellable kind payload) (hrest : SetsApart rest) :
    CutsOff kind payload (spell kind payload).toList rest :=
  cut_of_isWritten ((isWritten_spell h).append hrest.startsBlank nofun)

/-! ## Tokens that are cut off -/

theorem spellable_of_isWritten {kind : TokenKind} {payload : Option Payload} {w rest : List Char}
    (h : IsWritten (.token kind payload) w rest) : Spellable kind payload := by
  cases h with
  | word hmem _ =>
    have hplain : ∀ e ∈ Lexicon.words, e.2.isPlain := by decide
    exact .plain (hplain _ hmem)
  | symbol hmem _ _ =>
    have hplain : ∀ e ∈ Lexicon.symbols, e.2.isPlain := by decide
    exact .plain (hplain _ hmem)
  | name hlabel _ => exact .name hlabel
  | number _ _ _ hvalue =>
    refine .number ?_
    rw [Int64.le_iff_toInt_le, hvalue, Int64.toInt_zero]
    exact Int.natCast_nonneg _
  | literal _ => exact .text _

/-- What is cut off a text as a token can be spelled. -/
theorem spellable_of_cut {c : Char} {cs : List Char} {kind : TokenKind} {payload : Option Payload}
    (h : (cut c cs).lexeme = .token kind payload) : Spellable kind payload := by
  have hwritten := @isWritten_cut c cs (by simp [h])
  rw [h] at hwritten
  exact spellable_of_isWritten hwritten

theorem ne_eof_of_cut {c : Char} {cs : List Char} {kind : TokenKind} {payload : Option Payload}
    (h : (cut c cs).lexeme = .token kind payload) : kind ≠ .eof := (spellable_of_cut h).ne_eof

end Token

end AlloyLexical

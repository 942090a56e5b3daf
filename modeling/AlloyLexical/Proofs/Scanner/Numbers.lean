import AlloyLexical.Proofs.Scanner.Faults

/-!
# Digits to the end of a text

Where a text goes on with digits and nothing else, it is up to their value whether it
has a number there or is at fault:

* below the bound, the digits are the number of their value, however many there are
  (`Scanner.Passes.tokenize_digits`);
* from the bound on they are too large, and reported with all of their digits
  (`Scanner.Passes.tokenize_large`).

There may be nothing in front of them (`Scanner.passes_nothing`) or a minus sign
(`Scanner.passes_minus`). The sign is a token of its own to the scanner, and the bound
is the same behind it.
-/

namespace AlloyLexical

/-- A text of digits, of which there is one at least. -/
structure IsDigits (d : String) : Prop where
  ne_empty : d ≠ ""
  isDigit : ∀ c ∈ d.toList, c.isDigit

namespace IsDigits

variable {d : String}

theorem iff_all : IsDigits d ↔ d ≠ "" ∧ d.toList.all Char.isDigit := by
  rw [List.all_eq_true]
  exact ⟨fun h => ⟨h.ne_empty, h.isDigit⟩, fun h => ⟨h.1, h.2⟩⟩

instance : DecidablePred IsDigits := fun _ => decidable_of_iff _ iff_all.symm

theorem ne_nil (h : IsDigits d) : d.toList ≠ [] := String.toList_eq_nil_iff.not.2 h.ne_empty

/-- A text of digits has no byte order mark. -/
theorem ne_mark (h : IsDigits d) : ∀ c ∈ d.toList.head?, c ≠ '\uFEFF' := by
  rintro c hc rfl
  exact absurd (h.isDigit _ (List.mem_of_mem_head? hc)) (by decide)

/-- Before digits a minus sign is written as such: digits make no symbol longer. -/
theorem isWritten_minus (h : IsDigits d) :
    (Lexeme.token .minus none).IsWritten "-".toList d.toList := by
  have hsymbols : ∀ e ∈ Lexicon.symbols, ¬e.1.toList.any Char.isDigit := by decide
  have hhead : ∀ c ∈ d.toList.head?, c.isDigit := fun c hc =>
    h.isDigit c (List.mem_of_mem_head? hc)
  refine .symbol (by decide) (fun e he hpre => ?_) ?_
  · rw [← String.length_toList]
    obtain hnil | ⟨v, hv, hpre⟩ := List.prefix_cons_iff.1 hpre
    · rw [hnil]
      exact Nat.zero_le _
    · rcases v with _ | ⟨c, v⟩
      · rw [hv]
        exact Nat.le_refl _
      · have hc : c ∈ e.1.toList := by simp [hv]
        have hdigit := h.isDigit c (hpre.subset List.mem_cons_self)
        exact absurd (List.any_eq_true.2 ⟨c, hc, hdigit⟩) (hsymbols e he)
  · show ¬Comment.Opens ('-' :: d.toList)
    rw [Comment.opens_cons_iff]
    rintro (⟨-, hminus⟩ | ⟨hslash, -⟩)
    · exact absurd (hhead '-' hminus) (by decide)
    · cases hslash

end IsDigits

namespace Scanner

variable {text d : String} {ts : List Token} {p : Position} {stop : Nat}

/-- Nothing is passed before digits at the head of a text. -/
theorem passes_nothing (h : IsDigits d) :
    (ofText d none 0).Passes [] ⟨d.toList, ⟨1, 1⟩, none⟩ := by
  rw [ofText_of_ne_mark h.ne_mark]
  exact .refl _

/-- A minus sign is passed before digits. -/
theorem passes_minus (h : IsDigits d) : (ofText ("-" ++ d) none 0).Passes
    [⟨.minus, none, .point none ⟨1, 1⟩⟩] ⟨d.toList, ⟨1, 2⟩, none⟩ := by
  have hmark : ∀ c ∈ ("-" ++ d).toList.head?, c ≠ '\uFEFF' := by
    rw [String.toList_append]
    rintro _ ⟨⟩
    decide
  rw [ofText_of_ne_mark hmark]
  exact passes_of_isWritten h.isWritten_minus String.toList_append

/-- Digits at the end of a text are a number, if their value is below the bound. -/
theorem Passes.tokenize_digits {value : Int64}
    (h : (ofText text none 0).Passes ts ⟨d.toList, p, none⟩) (hd : IsDigits d)
    (hvalue : value.toInt = Nat.ofDigitChars 10 d.toList 0)
    (hstop : p.column + d.length = stop + 1) :
    tokenize text = .ok (ts ++ [⟨.number, some (.number value), ⟨none, p, ⟨p.line, stop⟩⟩⟩]) := by
  have hp : 1 ≤ p.column := h.one_le_column (Nat.le_refl 1)
  have hw : (Lexeme.token .number (some (.number value))).IsWritten d.toList [] :=
    .number hd.ne_nil hd.isDigit nofun hvalue
  have hnumber := passes_of_isWritten (s := ⟨d.toList, p, none⟩) hw (List.append_nil _).symm
  rw [back_past_digits p hd.ne_nil hd.isDigit hp, String.length_toList, hstop] at hnumber
  exact ((h.trans hnumber).yields_of_rests (.ending rfl)).collect_eq

/-- Digits at the end of a text are at fault, if their value is not below the bound. -/
theorem Passes.tokenize_large (h : (ofText text none 0).Passes ts ⟨d.toList, p, none⟩)
    (hd : IsDigits d) (hvalue : Lexeme.numberBound ≤ Nat.ofDigitChars 10 d.toList 0)
    (hstop : p.column + d.length = stop + 1) :
    tokenize text = .error ⟨.numberOutOfRange d, ⟨none, p, ⟨p.line, stop⟩⟩⟩ := by
  have hp : 1 ≤ p.column := h.one_le_column (Nat.le_refl 1)
  have hoffends := @Lexeme.Offends.largeNumber d.toList [] hd.ne_nil hd.isDigit nofun hvalue
  rw [List.append_nil, String.ofList_toList] at hoffends
  have hrests := rests_of_offends (s := ⟨d.toList, p, none⟩) hoffends hp
  rw [ScanFault.spanAt, hstop] at hrests
  exact (h.yields_of_rests hrests).collect_eq

end Scanner

end AlloyLexical

import Mathlib.Algebra.Group.Nat.Defs
import AlloyLexical.Proofs.Filter.Payloads
import AlloyLexical.Proofs.Scanner.Numbers

/-!
# Numbers

Numbers are exact. The scanner makes none that is negative, and the filter changes one
in a single way: a minus sign in front of it is merged with it into its opposite. So
the minus signs and the numbers that come out are those that were scanned, in the same
order, but for such pairs (`Signs.Leaves`).

The opposite is taken in 64 bits, where the least number is its own. It is never taken of
this one: what goes with a number leaves it out, and what is scanned goes with its kind
(`Token.Fits`, `Signs.toInt_neg`). Nor can the least number be written, as its digits are
a fault even if there is a sign in front of them (`numbers_exact`).
-/

namespace AlloyLexical

open Commands Declarations

/-! ## Minus signs and numbers -/

/-- Whether the token is a minus sign or carries a number. -/
def Token.isNumeric (t : Token) : Bool := t.kind = .minus ∨ t.number?.isSome

/-- The tokens `out` are the minus signs and the numbers among the tokens `ts`, in the
    same order and as they are. But of some minus signs with a number right behind them
    there is one number for both, the opposite, which spans from the one to the
    other. -/
inductive Signs.Leaves : List Token → List Token → Prop
  | nil : Leaves [] []
  | other {t : Token} {ts out : List Token} : ¬t.isNumeric → Leaves ts out → Leaves (t :: ts) out
  | kept {t : Token} {ts out : List Token} : t.isNumeric → Leaves ts out →
    Leaves (t :: ts) (t :: out)
  | signed {m t : Token} {n n' : Int64} {ts out : List Token} : m.kind = .minus →
    t.number? = some n → n'.toInt = -n.toInt → Leaves ts out →
    Leaves (m :: t :: ts) (⟨.number, some (.number n'), m.span.merge t.span⟩ :: out)

open Token

theorem Token.Fits.isNumeric_iff {t : Token} (h : Fits t.kind t.payload) :
    t.isNumeric ↔ t.kind = .minus ∨ t.kind = .number := by
  obtain ⟨kind, payload, span⟩ := t
  rw [isNumeric, decide_eq_true_iff]
  cases h with
  | nothing hkind =>
    have hnumber : kind ≠ .number := TokenKind.ne_of_isBare hkind nofun
    exact or_congr_right (iff_of_false nofun hnumber)
  | label => exact or_congr_right (iff_of_false nofun nofun)
  | number => exact or_congr_right (iff_of_true rfl rfl)
  | text => exact or_congr_right (iff_of_false nofun nofun)

/-! ## Layers -/

/-- An operator is made of neither minus signs nor numbers. -/
theorem Operators.Rule.alone_or {r : List Token} {o : Token} (h : Rule r o) :
    r = [o] ∨ ∀ t ∈ r, t.kind ≠ .minus ∧ t.kind ≠ .number := by
  have hkind {t : Token} {k : TokenKind} (ht : t.kind = k) (hk : k ≠ .minus ∧ k ≠ .number) :
      t.kind ≠ .minus ∧ t.kind ≠ .number := ht ▸ hk
  have hmult {t : Token} (ht : t.kind.isMultiplicity) : t.kind ≠ .minus ∧ t.kind ≠ .number := by
    rcases TokenKind.set_or_quantifier ht with ht | ⟨q, ht⟩ <;> exact hkind ht ⟨nofun, nofun⟩
  cases h with
  | alone => exact .inl rfl
  | negation hx hy =>
    obtain ⟨k, hy, -⟩ := TokenKind.exists_of_negated? hy
    simp [hx, hy]
  | totalOrder hx hy hz | function _ hx hy hz | string hx hy hz =>
    simp [hx, hy, kind_of_isIdent hz]
  | arrowBetween hx hy hz => simp [hmult hx, hy, hmult hz]
  | arrowAfter hx hy => simp [hmult hx, hy]
  | arrowBefore hx hy => simp [hx, hmult hy]

/-- What makes an operator is not numeric, and neither is the operator. -/
theorem Operators.Merges.not_isNumeric {r : List Token} {o : Token} (h : Operators.Merges r o)
    (hfits : ∀ t ∈ r, Fits t.kind t.payload) :
    r = [o] ∨ (∀ t ∈ r, ¬t.isNumeric) ∧ ¬o.isNumeric := by
  rcases h.rule.alone_or with halone | hr
  · exact .inl halone
  rcases h.alone_or with halone | ⟨-, hminus, hnumber⟩
  · exact .inl halone
  refine .inr ⟨fun t ht => ?_, ?_⟩
  · rw [(hfits t ht).isNumeric_iff]
    exact not_or_intro (hr t ht).1 (hr t ht).2
  · rw [(h.rule.fits hfits).isNumeric_iff]
    exact not_or_intro hminus hnumber

namespace Signs

variable {ts out r : List Token} {o : Token}

/-- Tokens in front that are not numeric make no difference. -/
theorem Leaves.others (h : Leaves ts out) (hr : ∀ t ∈ r, ¬t.isNumeric) : Leaves (r ++ ts) out := by
  induction r with
  | nil => exact h
  | cons t r ih =>
    rw [List.forall_mem_cons] at hr
    exact .other hr.1 (ih hr.2)

/-- A token that is handed on as it is. -/
theorem Leaves.handed (t : Token) (h : Leaves ts (out.filter isNumeric)) :
    Leaves (t :: ts) ((t :: out).filter isNumeric) := by
  rw [List.filter_cons]
  split
  · next ht => exact .kept ht h
  · next ht => exact .other ht h

/-- A run of tokens and what is merged of it. -/
theorem Leaves.merged (hr : AlloyLexical.Merges r o) (hfits : ∀ t ∈ r, Fits t.kind t.payload)
    (h : Leaves ts (out.filter isNumeric)) : Leaves (r ++ ts) ((o :: out).filter isNumeric) := by
  rcases hr with hr | hr
  · rcases hr.not_isNumeric hfits with rfl | ⟨hr, ho⟩
    · exact .handed o h
    · rw [List.filter_cons_of_neg ho]
      exact h.others hr
  · cases hr with
    | alone => exact .handed o h
    | @sign m t n hm ht =>
      have hfits := hfits t (List.mem_cons_of_mem m List.mem_cons_self)
      rw [payload_of_number? (number?_of_value? ht)] at hfits
      exact .signed hm (number?_of_value? ht) (toInt_neg hfits.bound) h

end Signs

/-! ## All tokens -/

theorem not_isNumeric_of_isBare {t : Token} (h : Fits t.kind t.payload) (hbare : t.kind.isBare)
    (hminus : t.kind ≠ .minus) : ¬t.isNumeric := by
  rw [h.isNumeric_iff]
  exact not_or_intro hminus (TokenKind.ne_of_isBare hbare nofun)

theorem ne_minus_of_isCommand {k : TokenKind} (h : isCommand k) : k ≠ .minus := by
  rintro rfl
  cases h

theorem not_isNumeric_written {cs : List (Token × Token)} (hcs : ∀ c ∈ cs, IsClause c)
    (hfits : ∀ t ∈ written cs, Fits t.kind t.payload) : ∀ t ∈ written cs, ¬t.isNumeric := by
  rw [written, List.forall_mem_flatMap] at hfits ⊢
  intro c hc
  obtain ⟨hcolon, hcommand⟩ := List.forall_mem_cons.1 (hfits c hc)
  obtain ⟨hkind, hkind'⟩ := hcs c hc
  refine List.forall_mem_cons.2 ⟨?_, List.forall_mem_singleton.2 ?_⟩
  · refine not_isNumeric_of_isBare hcolon ?_ ?_ <;> rw [hkind]
    · rfl
    · decide
  · exact not_isNumeric_of_isBare (hcommand c.2 List.mem_cons_self)
      (TokenKind.isBare_of_isCommand hkind') (ne_minus_of_isCommand hkind')

/-- A command takes up a label, and a label is no number. -/
theorem not_isNumeric_turned {name : Token} {label : String} {cs : List (Token × Token)}
    (hlabel : name.payload = some (.label label)) (hcs : ∀ c ∈ cs, IsClause c)
    (hfits : ∀ t ∈ written cs, Fits t.kind t.payload) : ∀ t ∈ turned name cs, ¬t.isNumeric := by
  rw [written, List.forall_mem_flatMap] at hfits
  rw [turned, List.forall_mem_flatMap]
  intro c hc
  have hcolon := (List.forall_mem_cons.1 (hfits c hc)).1
  obtain ⟨hkind, hkind'⟩ := hcs c hc
  have hdot : Fits .dot c.1.payload := hcolon.of_isBare (by rw [hkind]; rfl) rfl
  refine List.forall_mem_cons.2 ⟨?_, List.forall_mem_singleton.2 ?_⟩
  · simp [isNumeric, withPayload, number?, hlabel, ne_minus_of_isCommand hkind']
  · have hne : TokenKind.dot ≠ .minus := by decide
    exact not_isNumeric_of_isBare (t := c.1.withKind .dot) hdot rfl hne

/-- What comes out of the layers above that of declarations. -/
theorem Arranged.leaves {ts out : List Token} (h : Arranged Merges ts out)
    (hfits : ∀ t ∈ ts, Fits t.kind t.payload) : Signs.Leaves ts (out.filter isNumeric) := by
  induction h with
  | nil => exact .nil
  | @run r ts out t o hr _ _ ih =>
    rw [List.append_cons] at hfits ⊢
    rw [List.forall_mem_append] at hfits
    exact .merged hr hfits.1 (ih hfits.2)
  | @named name cs ts out hname _ hcs _ _ ih =>
    rw [List.forall_mem_cons, List.forall_mem_append] at hfits
    obtain ⟨hfitsName, hfitsClauses, hfits⟩ := hfits
    obtain ⟨label, hlabel⟩ := (hname ▸ hfitsName).exists_label
    rw [List.filter_append,
      List.filter_eq_nil_iff.2 (not_isNumeric_turned hlabel hcs hfitsClauses), List.nil_append]
    exact .handed name ((ih hfits).others (not_isNumeric_written hcs hfitsClauses))

/-- The layer of declarations changes neither minus signs nor numbers. -/
theorem Declarations.Declares.eq_of_isNumeric {t u : Token} (h : Declares t u)
    (ht : Fits t.kind t.payload) (hnumeric : t.isNumeric ∨ u.isNumeric) : u = t := by
  have hu := h.fits ht
  rw [ht.isNumeric_iff, hu.isNumeric_iff] at hnumeric
  rcases h with rfl | ⟨q, hq, rfl⟩
  · rfl
  · simp [hq, withKind] at hnumeric

theorem Signs.Leaves.of_declares {ts us out : List Token} (h : Leaves us out)
    (hus : List.Forall₂ Declares ts us) (hfits : ∀ t ∈ ts, Fits t.kind t.payload) :
    Leaves ts out := by
  induction h generalizing ts with
  | nil =>
    rcases hus with _ | _
    exact .nil
  | other hu _ ih =>
    rcases hus with _ | ⟨htu, hus⟩
    rw [List.forall_mem_cons] at hfits
    refine .other (fun ht => hu ?_) (ih hus hfits.2)
    rwa [htu.eq_of_isNumeric hfits.1 (.inl ht)]
  | kept hu _ ih =>
    rcases hus with _ | ⟨htu, hus⟩
    rw [List.forall_mem_cons] at hfits
    obtain rfl := htu.eq_of_isNumeric hfits.1 (.inr hu)
    exact .kept hu (ih hus hfits.2)
  | signed hm hu hn _ ih =>
    rcases hus with _ | ⟨hlm, _ | ⟨htu, hus⟩⟩
    rw [List.forall_mem_cons, List.forall_mem_cons] at hfits
    obtain rfl := hlm.eq_of_isNumeric hfits.1 (.inr (by simp [isNumeric, hm]))
    obtain rfl := htu.eq_of_isNumeric hfits.2.1 (.inr (by simp [isNumeric, hu]))
    exact .signed hm hu hn (ih hus hfits.2.2)

/-! ## Digits -/

theorem rewrite_minus_number (m u : Span) (n : Int64) :
    Stack.rewrite Filter.layers [⟨.minus, none, m⟩, ⟨.number, some (.number n), u⟩] =
      [⟨.number, some (.number (-n)), m.merge u⟩] := by
  simp [Stack.rewrite, Layer.rewrite, Layer.rewriteFrom_cons, Layer.deliver, Declarations.deliver,
    TokenKind.declaring?, Commands.deliver, Operators.deliver, TokenKind.isMultiplicity,
    TokenKind.multiplicity?, Signs.deliver, Signs.admitsSign, Signs.sign, Signs.value?, number?]

/-- From a minus sign at the head of a text to the end of its line. -/
theorem merge_minus (stop : Nat) : (Span.point none ⟨1, 1⟩).merge ⟨none, ⟨1, 2⟩, ⟨1, stop + 1⟩⟩ =
    ⟨none, ⟨1, 1⟩, ⟨1, stop + 1⟩⟩ := by
  have hstart : (⟨1, 1⟩ : Position) ≤ ⟨1, 2⟩ := by decide
  have hstop : (⟨1, 1⟩ : Position) ≤ ⟨1, stop + 1⟩ := .inr ⟨rfl, Nat.le_add_left 1 stop⟩
  simp only [Span.merge, Span.point, Position.min_def, Position.max_def, if_pos hstart,
    if_pos hstop, Option.merge_none_left]

/-- Digits whose value is below the bound are the number of this value, and its opposite
    behind a minus sign. -/
theorem IsDigits.exists_number {d : String} (hd : IsDigits d)
    (hvalue : Nat.ofDigitChars 10 d.toList 0 < 2 ^ 63) : ∃ n n' : Int64,
      n.toInt = Nat.ofDigitChars 10 d.toList 0 ∧ n'.toInt = -Nat.ofDigitChars 10 d.toList 0 ∧
      tokenize d = .ok [⟨.number, some (.number n), ⟨none, ⟨1, 1⟩, ⟨1, d.length⟩⟩⟩] ∧
      filterText ("-" ++ d) =
        .ok [⟨.number, some (.number n'), ⟨none, ⟨1, 1⟩, ⟨1, d.length + 1⟩⟩⟩] := by
  have hn := Int64.toInt_ofNat_of_lt hvalue
  have hopposite := @Signs.toInt_neg (Int64.ofNat _) (by rw [hn]; omega)
  have halone := (Scanner.passes_nothing hd).tokenize_digits hd hn (Nat.add_comm 1 d.length)
  have hsigned := (Scanner.passes_minus hd).tokenize_digits hd hn (Nat.add_comm 2 d.length)
  refine ⟨_, _, hn, by rw [hopposite, hn], halone, ?_⟩
  rw [filterText_of_tokenize hsigned, List.singleton_append, rewrite_minus_number, merge_minus]

/-- Digits whose value is not below the bound are a fault, also behind a minus sign. -/
theorem IsDigits.fails {d : String} (hd : IsDigits d)
    (hvalue : 2 ^ 63 ≤ Nat.ofDigitChars 10 d.toList 0) :
    tokenize d = .error ⟨.numberOutOfRange d, ⟨none, ⟨1, 1⟩, ⟨1, d.length⟩⟩⟩ ∧
      let e : ScanError := ⟨.numberOutOfRange d, ⟨none, ⟨1, 2⟩, ⟨1, d.length + 1⟩⟩⟩
      filterText ("-" ++ d) = .error (.fatal ⟨"IO error: " ++ e.message, some e.span⟩) := by
  have hsigned := (Scanner.passes_minus hd).tokenize_large hd hvalue (Nat.add_comm 2 d.length)
  exact ⟨(Scanner.passes_nothing hd).tokenize_large hd hvalue (Nat.add_comm 1 d.length),
    filterText_of_fault hsigned⟩

/-! ## Exactness -/

/-- Numbers are exact. Digits are the number of their value, and with a minus sign its
    opposite, or they are a fault if this value is not below the bound. And of any text
    the filter hands out the numbers that were scanned, none of which is negative, in
    their order; what it merges with a minus sign becomes its opposite. -/
theorem numbers_exact :
    (∀ d : String, IsDigits d →
      (Nat.ofDigitChars 10 d.toList 0 < 2 ^ 63 → ∃ n n' : Int64,
        n.toInt = Nat.ofDigitChars 10 d.toList 0 ∧ n'.toInt = -Nat.ofDigitChars 10 d.toList 0 ∧
        tokenize d = .ok [⟨.number, some (.number n), ⟨none, ⟨1, 1⟩, ⟨1, d.length⟩⟩⟩] ∧
        filterText ("-" ++ d) =
          .ok [⟨.number, some (.number n'), ⟨none, ⟨1, 1⟩, ⟨1, d.length + 1⟩⟩⟩]) ∧
      (2 ^ 63 ≤ Nat.ofDigitChars 10 d.toList 0 →
        tokenize d = .error ⟨.numberOutOfRange d, ⟨none, ⟨1, 1⟩, ⟨1, d.length⟩⟩⟩ ∧
        let e : ScanError := ⟨.numberOutOfRange d, ⟨none, ⟨1, 2⟩, ⟨1, d.length + 1⟩⟩⟩
        filterText ("-" ++ d) = .error (.fatal ⟨"IO error: " ++ e.message, some e.span⟩))) ∧
    ∀ text out, filterText text = .ok out → ∃ ts, tokenize text = .ok ts ∧
      (∀ t ∈ ts, ∀ n, t.number? = some n → 0 ≤ n.toInt) ∧
      Signs.Leaves ts (out.filter isNumeric) := by
  refine ⟨fun d hd => ⟨hd.exists_number, hd.fails⟩, fun text out h => ?_⟩
  obtain ⟨ts, htokens, rfl⟩ := exists_tokenize_of_filterText h
  have hspellable := spellable_of_tokenize htokens
  have hfits : ∀ t ∈ ts, Fits t.kind t.payload := fun t ht => (hspellable t ht).fits
  have hdeclares := forall₂_declares none ts
  refine ⟨ts, htokens, fun t ht n hn => ?_, ?_⟩
  · have hnumber := hspellable t ht
    rw [payload_of_number? hn] at hnumber
    exact hnumber.toInt_nonneg
  · have hleaves := (arranged_upper _).leaves (fits_of_declares hdeclares hfits)
    exact hleaves.of_declares hdeclares hfits

/-- Leading zeros and the greatest number, the least value that is none, and a text in
    which minus signs subtract and are signs. -/
theorem numbers_exact_at_the_bound :
    let d := "0009223372036854775807"
    let d' := "9223372036854775808"
    let e : ScanError := ⟨.numberOutOfRange d', ⟨none, ⟨1, 2⟩, ⟨1, 20⟩⟩⟩
    let t (kind : TokenKind) (payload : Option Payload) (start stop : Nat) : Token :=
      ⟨kind, payload, ⟨none, ⟨1, start⟩, ⟨1, stop⟩⟩⟩
    let text := "a - 1 = - 2 - - 03"
    let out := [t .ident (some (.label "a")) 1 1, t .minus none 3 3, t .number (some (.number 1)) 5 5,
      t (.relation .equal) none 7 7, t .number (some (.number (-2))) 9 11, t .minus none 13 13,
      t .number (some (.number (-3))) 15 18]
    (IsDigits d ∧ Nat.ofDigitChars 10 d.toList 0 < 2 ^ 63 ∧ ∃ n n' : Int64,
      n.toInt = 9223372036854775807 ∧ n'.toInt = -9223372036854775807 ∧
      tokenize d = .ok [t .number (some (.number n)) 1 22] ∧
      filterText ("-" ++ d) = .ok [t .number (some (.number n')) 1 23]) ∧
    (IsDigits d' ∧ 2 ^ 63 ≤ Nat.ofDigitChars 10 d'.toList 0 ∧
      tokenize d' = .error ⟨.numberOutOfRange d', ⟨none, ⟨1, 1⟩, ⟨1, 19⟩⟩⟩ ∧
      filterText ("-" ++ d') = .error (.fatal ⟨"IO error: " ++ e.message, some e.span⟩)) ∧
    filterText text = .ok out ∧ ∃ ts, tokenize text = .ok ts ∧
      (∀ t ∈ ts, ∀ n, t.number? = some n → 0 ≤ n.toInt) ∧
      Signs.Leaves ts (out.filter isNumeric) := by
  intro d d' e t text out
  have hd : IsDigits d := by decide
  have hd' : IsDigits d' := by decide
  have hvalue : Nat.ofDigitChars 10 d.toList 0 = 9223372036854775807 := by decide
  have hvalue' : 2 ^ 63 ≤ Nat.ofDigitChars 10 d'.toList 0 := by decide
  have hlength : d.length = 22 := by decide
  have hlength' : d'.length = 19 := by decide
  have hlt : Nat.ofDigitChars 10 d.toList 0 < 2 ^ 63 := by decide
  have htext : filterText text = .ok out := by decide +kernel
  have hnumber := (numbers_exact.1 d hd).1 hlt
  have hfault := (numbers_exact.1 d' hd').2 hvalue'
  rw [hvalue, hlength] at hnumber
  rw [hlength'] at hfault
  exact ⟨⟨hd, hlt, hnumber⟩, ⟨hd', hvalue', hfault⟩, htext, numbers_exact.2 text out htext⟩

end AlloyLexical

import AlloyLexical.Proofs.Lexeme.Spelling
import AlloyLexical.Proofs.Position
import AlloyLexical.Proofs.Source.Yields
import AlloyLexical.Source.Text
import Mathlib.Logic.Relation

/-!
# The way of a scanner

A scanner goes from lexeme to lexeme. A single `Scanner.Step` leads past the
lexeme at hand, whatever it is, and a scan is made of steps, so that what no step
changes no scan does (`Scanner.steps_scan`).

Where it meets no fault, the scanner *passes* layout and tokens
(`Scanner.Passes`). What a scanner yields are the tokens that it passes up to a
place where it finds no other, at the end of its text or before a fault
(`Scanner.exists_passes`); and from that place on it goes on as if it had been
there from the beginning (`Scanner.Passes.yields`).

On its way a scanner looks no further than it gets: if its text ended where it
has got to, it would have passed the same tokens (`Scanner.Passes.exists_before`).
-/

namespace AlloyLexical

namespace Scanner

variable {s s' s'' : Scanner} {ts us : List Token}

/-! ## Steps -/

/-- The scanner gets past the first lexeme of its text, be it at fault or not. -/
def Step (s s' : Scanner) : Prop := ∃ c cs, s.text = c :: cs ∧ s' = s.past (Lexeme.cut c cs)

/-- A scan leads on step by step. -/
theorem steps_scan (s : Scanner) : Relation.ReflTransGen Step s s.scan.2 := by
  induction s using layout_induction with
  | ending s hs => rw [scan_nil hs]
  | token s c cs kind payload hs hlexeme =>
    rw [scan_token hs hlexeme]
    exact .single ⟨c, cs, hs, rfl⟩
  | fault s c cs fault hs hlexeme =>
    rw [scan_fault hs hlexeme]
    exact .single ⟨c, cs, hs, rfl⟩
  | layout s c cs hs hlayout ih =>
    rw [scan_layout hs hlayout]
    exact .head ⟨c, cs, hs, rfl⟩ ih

/-! ## Passing tokens -/

/-- The scanner gets past layout and the tokens `ts` from `s` to `s'`. -/
inductive Passes : Scanner → List Token → Scanner → Prop
  | refl (s : Scanner) : Passes s [] s
  | layout {s s' : Scanner} {c : Char} {cs : List Char} {ts : List Token} : s.text = c :: cs →
    (Lexeme.cut c cs).lexeme.isLayout → Passes (s.past (Lexeme.cut c cs)) ts s' → Passes s ts s'
  | token {s s' : Scanner} {c : Char} {cs : List Char} {kind : TokenKind}
    {payload : Option Payload} {ts : List Token} : s.text = c :: cs →
    (Lexeme.cut c cs).lexeme = .token kind payload → Passes (s.past (Lexeme.cut c cs)) ts s' →
    Passes s (⟨kind, payload, s.spanTo (s.past (Lexeme.cut c cs))⟩ :: ts) s'

/-- The scanner is at a place where its next answer ends it: at the end of its
    text, or before a fault. -/
inductive Rests : Scanner → Except ScanError Token → Prop
  | ending {s : Scanner} : s.text = [] → Rests s (.ok (Token.eof s.here))
  | fault {s : Scanner} {c : Char} {cs : List Char} {f : ScanFault} : s.text = c :: cs →
    (Lexeme.cut c cs).lexeme = .fault f →
    Rests s (.error ⟨f, s.faultSpan (s.past (Lexeme.cut c cs)) f⟩)

theorem Rests.scan_eq {a : Except ScanError Token} (h : Rests s a) : s.scan.1 = a := by
  cases h with
  | ending hs => rw [scan_nil hs]
  | fault hs hlexeme => rw [scan_fault hs hlexeme]

theorem Rests.ends {a : Except ScanError Token} (h : Rests s a) : Source.Ends a := by
  cases h with
  | ending _ => rfl
  | fault _ _ => trivial

theorem Rests.text_eq_nil {z : Token} (h : Rests s (.ok z)) : s.text = [] := by
  cases h with
  | ending hs => exact hs

/-- Wherever the scanner passes, it counts columns from one. -/
theorem Passes.one_le_column (h : s.Passes ts s') (hcolumn : 1 ≤ s.position.column) :
    1 ≤ s'.position.column := by
  induction h with
  | refl => exact hcolumn
  | layout _ _ _ ih => exact ih (Position.one_le_column_past hcolumn _ _)
  | token _ _ _ ih => exact ih (Position.one_le_column_past hcolumn _ _)

theorem Passes.file_eq (h : s.Passes ts s') : s'.file = s.file := by
  induction h with
  | refl => rfl
  | layout _ _ _ ih => exact ih
  | token _ _ _ ih => exact ih

theorem Passes.trans (h : s.Passes ts s') (h' : s'.Passes us s'') : s.Passes (ts ++ us) s'' := by
  induction h with
  | refl => exact h'
  | layout hs hlayout _ ih => exact .layout hs hlayout (ih h')
  | token hs hlexeme _ ih => exact .token hs hlexeme (ih h')

/-- Having passed tokens, the scanner goes on from where it is. -/
theorem Passes.yields {a : Except ScanError Token} (h : s.Passes ts s')
    (hus : source.Yields s' us a s'') : source.Yields s (ts ++ us) a s'' := by
  induction h with
  | refl => exact hus
  | layout hs hlayout _ ih => exact (ih hus).congr (scan_layout hs hlayout)
  | token hs hlexeme _ ih =>
    exact .next (scan_token hs hlexeme) (Token.ne_eof_of_cut hlexeme) (ih hus)

theorem Passes.yields_of_rests {a : Except ScanError Token} (h : s.Passes ts s')
    (ha : Rests s' a) : source.Yields s ts a s'.scan.2 := by
  rw [← List.append_nil ts]
  exact h.yields (.done (Prod.ext ha.scan_eq rfl) ha.ends)

/-- What a scan hands out, the scanner passes. -/
theorem passes_of_scan {t : Token} (h : s.scan = (.ok t, s')) (ht : t.kind ≠ .eof) :
    s.Passes [t] s' := by
  induction s using layout_induction with
  | ending s hs =>
    rw [scan_nil hs] at h
    cases h
    exact absurd rfl ht
  | token s c cs kind payload hs hlexeme =>
    rw [scan_token hs hlexeme] at h
    cases h
    exact .token hs hlexeme (.refl _)
  | fault s c cs fault hs hlexeme =>
    rw [scan_fault hs hlexeme] at h
    cases h
  | layout s c cs hs hlayout ih =>
    rw [scan_layout hs hlayout] at h
    exact .layout hs hlayout (ih h)

/-- Where a scan hands out no token, the scanner passes layout up to the end of its
    text or to a fault. -/
theorem exists_passes_of_ends {a : Except ScanError Token} (h : s.scan = (a, s'))
    (ha : Source.Ends a) : ∃ s₁, s.Passes [] s₁ ∧ Rests s₁ a := by
  induction s using layout_induction with
  | ending s hs =>
    rw [scan_nil hs] at h
    cases h
    exact ⟨_, .refl _, .ending hs⟩
  | token s c cs kind payload hs hlexeme =>
    rw [scan_token hs hlexeme] at h
    cases h
    exact absurd ha (Token.ne_eof_of_cut hlexeme)
  | fault s c cs fault hs hlexeme =>
    rw [scan_fault hs hlexeme] at h
    cases h
    exact ⟨s, .refl s, .fault hs hlexeme⟩
  | layout s c cs hs hlayout ih =>
    rw [scan_layout hs hlayout] at h
    obtain ⟨s₁, hs₁, hrests⟩ := ih h
    exact ⟨s₁, .layout hs hlayout hs₁, hrests⟩

/-- A scanner yields the tokens that it passes on its way to the end of its text or
    to a fault. -/
theorem exists_passes {a : Except ScanError Token} (h : source.Yields s ts a s') :
    ∃ s₁, s.Passes ts s₁ ∧ Rests s₁ a := by
  induction h with
  | done hscan ha => exact exists_passes_of_ends hscan ha
  | next hscan ht _ ih =>
    obtain ⟨s₁, hs₁, hrests⟩ := ih
    exact ⟨s₁, (passes_of_scan hscan ht).trans hs₁, hrests⟩

/-- A token is passed where it is written, and spans from its first character to the
    last. -/
theorem passes_of_isWritten {kind : TokenKind} {payload : Option Payload} {w rest : List Char}
    (hw : (Lexeme.token kind payload).IsWritten w rest) (hs : s.text = w ++ rest) :
    s.Passes [⟨kind, payload, ⟨s.file, s.position, (s.position.past (fun _ => 1) w).back⟩⟩]
      ⟨rest, s.position.past (fun _ => 1) w, s.file⟩ := by
  obtain ⟨c, cs, hcs, hcut⟩ := Lexeme.cut_of_isWritten hw
  have hpast : s.past (Lexeme.cut c cs) = ⟨rest, s.position.past (fun _ => 1) w, s.file⟩ := by
    rw [past, hcut]
    rfl
  have hpasses := Passes.token (hs.trans hcs) (by rw [hcut]) (.refl (s.past (Lexeme.cut c cs)))
  rwa [spanTo, hpast] at hpasses

/-! ## The head of a text -/

/-- A text without a byte order mark is scanned from its first character. -/
theorem ofText_of_ne_mark {text : String} (h : ∀ c ∈ text.toList.head?, c ≠ '\uFEFF')
    (file : Option String) (precedingLines : Nat) :
    ofText text file precedingLines = ⟨text.toList, ⟨1 + precedingLines, 1⟩, file⟩ :=
  congrArg (Scanner.mk · ⟨1 + precedingLines, 1⟩ file) (text_ofText h file precedingLines)

/-- A text may begin with a byte order mark, and is scanned from behind it. So is
    the text where it ends sooner, unless it loses the mark. -/
theorem exists_mark (text : String) : ∃ mark body : String, text = mark ++ body ∧
    (mark = "" ∨ mark = "\uFEFF") ∧ ∀ before : String, before.toList <+: body.toList →
      ∀ file precedingLines, ofText (mark ++ before) file precedingLines =
        ⟨before.toList, ⟨1 + precedingLines, 1⟩, file⟩ := by
  by_cases hmark : text.toList.head? = some '\uFEFF'
  · obtain ⟨cs, hcs⟩ := List.head?_eq_some_iff.1 hmark
    have happend (before : String) :
        ("\uFEFF" ++ before).toList = '\uFEFF' :: before.toList := by simp
    refine ⟨"\uFEFF", String.ofList cs, ?_, .inr rfl, fun before _ file precedingLines => ?_⟩
    · rw [← String.toList_inj, hcs, happend, String.toList_ofList]
    · rw [ofText, happend]
      rfl
  · refine ⟨"", text, String.empty_append.symm, .inl rfl, fun before h file precedingLines => ?_⟩
    -- A text that ends sooner begins with the same character, if it has one.
    have hhead : ∀ c ∈ before.toList.head?, c ≠ '\uFEFF' := by
      rintro c hc rfl
      obtain ⟨more, hmore⟩ := h
      obtain ⟨cs, hcs⟩ := List.head?_eq_some_iff.1 hc
      exact hmark (by rw [← hmore, hcs]; rfl)
    rw [String.empty_append]
    exact ofText_of_ne_mark hhead file precedingLines

/-! ## Texts that end sooner -/

/-- The scanner with another text. -/
def withText (s : Scanner) (text : List Char) : Scanner := { s with text := text }

/-- A lexeme is passed in the same way where the text ends sooner behind it. -/
theorem exists_past_withText {c : Char} {cs before rest : List Char} (hs : s.text = c :: cs)
    (hcut : ∀ f, (Lexeme.cut c cs).lexeme ≠ .fault f)
    (hrest : (s.past (Lexeme.cut c cs)).text = before ++ rest) :
    ∃ cs', s.text = c :: cs' ++ rest ∧ (Lexeme.cut c cs').lexeme = (Lexeme.cut c cs).lexeme ∧
      (s.withText (c :: cs')).past (Lexeme.cut c cs') =
        (s.past (Lexeme.cut c cs)).withText before := by
  obtain ⟨cs', hcs, hshort⟩ := Lexeme.exists_cut_of_rest hcut hrest
  refine ⟨cs', ?_, by rw [hshort], ?_⟩
  · rw [hs, hcs]
    rfl
  · rw [hshort]
    rfl

/-- What is passed is passed as well where the text ends with it. -/
theorem Passes.exists_before (h : s.Passes ts s') : ∃ before, s.text = before ++ s'.text ∧
    (s.withText before).Passes ts (s'.withText []) := by
  induction h with
  | refl s => exact ⟨[], rfl, .refl _⟩
  | layout hs hlayout _ ih =>
    obtain ⟨before, hrest, hpasses⟩ := ih
    obtain ⟨cs', htext, hlexeme, hpast⟩ :=
      exists_past_withText hs (Lexeme.ne_fault_of_isLayout hlayout) hrest
    rw [← hlexeme] at hlayout
    rw [← hpast] at hpasses
    exact ⟨_, htext, .layout rfl hlayout hpasses⟩
  | token hs hlexeme _ ih =>
    obtain ⟨before, hrest, hpasses⟩ := ih
    obtain ⟨cs', htext, hsame, hpast⟩ := exists_past_withText hs (by simp [hlexeme]) hrest
    rw [← hpast] at hpasses
    refine ⟨_, htext, ?_⟩
    have htoken := Passes.token (s := _) rfl (hsame.trans hlexeme) hpasses
    rwa [spanTo, hpast] at htoken

end Scanner

end AlloyLexical

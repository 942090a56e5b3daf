import Mathlib.Algebra.Ring.Int.Defs
import AlloyLexical.Proofs.Filter.Heads
import AlloyLexical.Proofs.Filter.Text
import AlloyLexical.Proofs.Layer.Greedy
import AlloyLexical.Proofs.Scanner.Respelling
import AlloyLexical.Proofs.Scanner.Segments

/-!
# Payloads

Nothing about a token ties its payload to its kind, and the filter changes the one
without the other: a command carries the label of its name, a merged token what
the first of its run carried. Still a grammar can tell from the kind of a token
what the token carries (`PayloadFits`), and from the dot behind a command whether
it has a name.

* What the scanner makes carries what goes with its kind (`Token.Fits`). Merging
  tokens keeps it so, as the first token of a run carries nothing
  (`Merges.fits`).
* What comes out is made of a run, or is part of a named command that was turned
  around (`HandedOut`). Only the commands among the latter carry what does not go
  with their kind, and the tokens behind them lead to the name.
* A dot that comes out right behind any other command was scanned as a dot. The
  colons of named commands were scanned elsewhere, as tokens are in order
  (`InOrder.eq_of_span_eq`).
-/

namespace AlloyLexical

open Commands Declarations

/-! ## What goes with a kind -/

/-- Whether tokens of the given kind carry nothing, unless they are commands with a
    name. -/
def TokenKind.isBare : TokenKind → Bool
  | eof | ident | number | str => false
  | _ => true

theorem TokenKind.isBare_of_isPlain {k : TokenKind} (h : k.isPlain) : k.isBare := by
  rw [isPlain.eq_def] at h
  split at h
  case h_6 => cases h
  all_goals rfl

theorem TokenKind.isBare_of_isMultiplicity {k : TokenKind} (h : k.isMultiplicity) : k.isBare := by
  rcases set_or_quantifier h with rfl | ⟨q, rfl⟩ <;> rfl

theorem TokenKind.isBare_of_isCommand {k : TokenKind} (h : isCommand k) : k.isBare := by
  rw [isCommand.eq_def] at h
  split at h
  case h_3 => cases h
  all_goals rfl

theorem TokenKind.ne_of_isBare {k k' : TokenKind} (h : k.isBare) (h' : ¬k'.isBare) : k ≠ k' :=
  fun heq => h' (heq ▸ h)

namespace Token

/-- The payloads that go with a kind. A number is not the least one, so that its
    opposite is a number as well. -/
inductive Fits : TokenKind → Option Payload → Prop
  | nothing {kind : TokenKind} : kind.isBare → Fits kind none
  | label {label : String} : label = "fun/String" ∨ Word.IsName label →
    Fits .ident (some (.label label))
  | number {value : Int64} : -(2 ^ 63 - 1) ≤ value.toInt → Fits .number (some (.number value))
  | text (content : String) : Fits .str (some (.text content))

variable {kind : TokenKind} {payload : Option Payload}

theorem Fits.eq_none (h : Fits kind payload) (hkind : kind.isBare) : payload = none := by
  cases h with
  | nothing => rfl
  | _ => cases hkind

/-- What goes with a kind that carries nothing goes with all such kinds. -/
theorem Fits.of_isBare {kind' : TokenKind} (h : Fits kind payload) (hkind : kind.isBare)
    (hkind' : kind'.isBare) : Fits kind' payload := by
  rw [h.eq_none hkind]
  exact .nothing hkind'

theorem Fits.exists_label (h : Fits .ident payload) :
    ∃ label, payload = some (.label label) := by
  cases h with
  | nothing hkind => cases hkind
  | label => exact ⟨_, rfl⟩

theorem Fits.bound {value : Int64} (h : Fits kind (some (.number value))) :
    -(2 ^ 63 - 1) ≤ value.toInt := by
  cases h with
  | number hvalue => exact hvalue

theorem Spellable.toInt_nonneg {value : Int64} (h : Spellable kind (some (.number value))) :
    0 ≤ value.toInt := by
  cases h with
  | number hvalue => rwa [Int64.le_iff_toInt_le, Int64.toInt_zero] at hvalue

theorem Spellable.fits (h : Spellable kind payload) : Fits kind payload := by
  cases h with
  | plain hkind => exact .nothing (TokenKind.isBare_of_isPlain hkind)
  | name hlabel => exact .label (.inr hlabel)
  | number hvalue =>
    have hnonneg := (Spellable.number hvalue).toInt_nonneg
    exact .number (by omega)
  | text content => exact .text content

end Token

open Token

/-- A sign is changed exactly: only the least number is its own opposite. -/
theorem Signs.toInt_neg {value : Int64} (h : -(2 ^ 63 - 1) ≤ value.toInt) :
    (-value).toInt = -value.toInt := by
  have hlt := value.toInt_lt
  rw [Int64.toInt_neg, Int.bmod_eq_of_le] <;> omega

theorem Signs.bound_neg {value : Int64} (h : -(2 ^ 63 - 1) ≤ value.toInt) :
    -(2 ^ 63 - 1) ≤ (-value).toInt := by
  have hlt := value.toInt_lt
  rw [toInt_neg h]
  omega

theorem Declarations.Declares.fits {t u : Token} (h : Declares t u)
    (ht : Fits t.kind t.payload) : Fits u.kind u.payload := by
  rcases h with rfl | ⟨q, hq, rfl⟩
  · exact ht
  · exact ht.of_isBare (hq ▸ rfl) rfl

/-- The layer of declarations keeps it so. -/
theorem fits_of_declares {ts us : List Token} (h : List.Forall₂ Declares ts us)
    (hts : ∀ t ∈ ts, Fits t.kind t.payload) : ∀ u ∈ us, Fits u.kind u.payload := by
  intro u hu
  obtain ⟨t, ht, htu⟩ := exists_of_mem_declares h hu
  exact htu.fits (hts t ht)

theorem Operators.Rule.fits {r : List Token} {o : Token} (h : Rule r o)
    (hr : ∀ t ∈ r, Fits t.kind t.payload) : Fits o.kind o.payload := by
  cases h with
  | alone => exact hr o List.mem_cons_self
  | string => exact .label (.inl rfl)
  | @negation x y kind hx hy =>
    obtain ⟨k, -, rfl⟩ := TokenKind.exists_of_negated? hy
    exact (hr x List.mem_cons_self).of_isBare (hx ▸ rfl) rfl
  | totalOrder hx | function _ hx | arrowBefore hx =>
    exact (hr _ List.mem_cons_self).of_isBare (hx ▸ rfl) rfl
  | arrowBetween hx | arrowAfter hx =>
    exact (hr _ List.mem_cons_self).of_isBare (TokenKind.isBare_of_isMultiplicity hx) rfl

theorem Signs.Merges.fits {r : List Token} {o : Token} (h : Signs.Merges r o)
    (hr : ∀ t ∈ r, Fits t.kind t.payload) : Fits o.kind o.payload := by
  cases h with
  | alone => exact hr o List.mem_cons_self
  | @sign t u n ht hu =>
    have hfits := hr u (List.mem_cons_of_mem t List.mem_cons_self)
    rw [Token.payload_of_number? (number?_of_value? hu)] at hfits
    exact .number (bound_neg hfits.bound)

/-- A merged token carries what goes with its kind if the tokens of the run do. -/
theorem Merges.fits {r : List Token} {o : Token} (h : Merges r o)
    (hr : ∀ t ∈ r, Fits t.kind t.payload) : Fits o.kind o.payload := by
  rcases h with h | h
  · exact h.rule.fits hr
  · exact h.fits hr

/-! ## Where a token comes out -/

/-- Of the tokens `ts` the filter hands out the token `o`, with the tokens `behind`
    behind it: it makes `o` of a run, or `o` is a part of a named command that is
    turned around. -/
inductive HandedOut (P : List Token → Token → Prop) (ts : List Token) : Token → List Token → Prop
  | made {earlier r later behind : List Token} {u o : Token} :
    ts = earlier ++ (r ++ u :: later) → P (r ++ [u]) o → Arranged P later behind →
    HandedOut P ts o behind
  | command {earlier later behind : List Token} {name : Token} {cs cs' : List (Token × Token)}
    {c : Token × Token} : ts = earlier ++ name :: (written (cs ++ c :: cs') ++ later) →
    name.kind = .ident → (∀ c' ∈ cs ++ c :: cs', IsClause c') →
    HandedOut P ts (c.2.withPayload name.payload)
      (c.1.withKind .dot :: (turned name cs' ++ name :: behind))
  | dot {earlier later behind : List Token} {name : Token} {cs cs' : List (Token × Token)}
    {c : Token × Token} : ts = earlier ++ name :: (written (cs ++ c :: cs') ++ later) →
    name.kind = .ident → (∀ c' ∈ cs ++ c :: cs', IsClause c') →
    HandedOut P ts (c.1.withKind .dot) (turned name cs' ++ name :: behind)
  | name {earlier later behind : List Token} {name : Token} :
    ts = earlier ++ name :: later → name.kind = .ident → HandedOut P ts name behind

theorem HandedOut.prepend {P : List Token → Token → Prop} {ts behind : List Token} {o : Token}
    (h : HandedOut P ts o behind) (us : List Token) : HandedOut P (us ++ ts) o behind := by
  have hprepend {earlier vs : List Token} (hts : ts = earlier ++ vs) :
      us ++ ts = us ++ earlier ++ vs := by
    rw [hts, List.append_assoc]
  cases h with
  | made hts hr hbehind => exact .made (hprepend hts) hr hbehind
  | command hts hname hcs => exact .command (hprepend hts) hname hcs
  | dot hts hname hcs => exact .dot (hprepend hts) hname hcs
  | name hts hname => exact .name (hprepend hts) hname

/-- Every place in what comes out is one of these. -/
theorem Arranged.handedOut {P : List Token → Token → Prop} {ts out before behind : List Token}
    {o : Token} (h : Arranged P ts out) (hout : out = before ++ o :: behind) :
    HandedOut P ts o behind := by
  induction h generalizing before with
  | nil => exact absurd hout.symm (List.append_ne_nil_of_right_ne_nil before nofun)
  | @run r ts out t o' ho _ hrest ih =>
    rcases before with _ | ⟨b, before⟩
    · obtain ⟨rfl, rfl⟩ := List.cons.inj hout
      exact .made (List.nil_append _).symm ho hrest
    · rw [List.append_cons]
      exact (ih (List.cons.inj hout).2).prepend _
  | @named name cs ts out hname _ hclauses _ _ ih =>
    rcases exists_of_turned_eq hout with ⟨cs₁, c, cs₂, rfl, hplace⟩ | rfl | ⟨between, hplace⟩
    · rcases hplace with ⟨rfl, rfl⟩ | ⟨rfl, rfl⟩
      · exact .command (List.nil_append _).symm hname hclauses
      · exact .dot (List.nil_append _).symm hname hclauses
    · exact .name (List.nil_append _).symm hname
    · rw [← List.cons_append]
      exact (ih hplace).prepend _

/-! ## Dots -/

/-- A symbol is made of nothing but itself. -/
theorem Merges.eq_of_symbol {r : List Token} {o : Token} {s : Symbol} (h : Merges r o)
    (ho : o.kind = .symbol s) : r = [o] := by
  rcases h with h | h
  · cases h.rule with
    | alone => rfl
    | negation hx hy =>
      obtain ⟨k, -, rfl⟩ := TokenKind.exists_of_negated? hy
      cases ho
    | _ => cases ho
  · cases h with
    | alone => rfl
    | sign => cases ho

/-- A dot that comes out first was there as a dot. -/
theorem Arranged.mem_of_dot {ts out : List Token} {o : Token} (h : Arranged Merges ts (o :: out))
    (ho : o.kind = .dot) : o ∈ ts := by
  generalize hus : o :: out = us at h
  cases h with
  | nil => cases hus
  | @run r ts _ t _ hr =>
    obtain ⟨rfl, -⟩ := List.cons.inj hus
    have hmem : o ∈ r ++ [t] := by
      rw [hr.eq_of_symbol ho]
      exact List.mem_cons_self
    rw [List.append_cons]
    exact List.mem_append_left _ hmem
  | @named name cs _ _ _ hcs hclauses =>
    -- A turned clause has its command in front of its dot.
    obtain ⟨c, cs, rfl⟩ := List.exists_cons_of_ne_nil hcs
    obtain ⟨rfl, -⟩ := List.cons.inj hus
    have hcommand := (List.forall_mem_cons.1 hclauses).1.2
    rw [show c.2.kind = .dot from ho] at hcommand
    cases hcommand

/-- The token `d` is the dot that was the colon of a named command among the tokens
    `ts`. Between the name and this command there may be other commands. -/
def IsDotOfNamed (ts : List Token) (d : Token) : Prop :=
  ∃ earlier name cs colon command later,
    ts = earlier ++ name :: (written cs ++ colon :: command :: later) ∧ name.kind = .ident ∧
      (∀ c ∈ cs, IsClause c) ∧ IsClause (colon, command) ∧ d = colon.withKind .dot

/-- Tokens in order have nothing else where a named command has its colon. -/
theorem InOrder.not_isDotOfNamed {ts : List Token} (h : InOrder ts) {d : Token} (hd : d ∈ ts) :
    ¬IsDotOfNamed ts d := by
  rintro ⟨earlier, name, cs, colon, command, later, hts, -, -, hclause, rfl⟩
  have hcolon : colon ∈ ts := by simp [hts]
  have heq := h.eq_of_span_eq hd hcolon rfl
  have hkind : colon.kind = .dot := congrArg Token.kind heq.symm
  rw [hclause.1] at hkind
  cases hkind

/-! ## What comes out -/

/-- Some tokens begin with a dot, maybe with commands that each have a dot behind
    them, and with a name of the given label. -/
inductive LeadsToName (label : String) : List Token → Prop
  | name {dot name : Token} {ts : List Token} : dot.kind = .dot → name.kind = .ident →
    name.payload = some (.label label) → LeadsToName label (dot :: name :: ts)
  | command {dot command : Token} {ts : List Token} : dot.kind = .dot → isCommand command.kind →
    LeadsToName label ts → LeadsToName label (dot :: command :: ts)

/-- Whether a token `t` with the tokens `behind` behind it carries a label: it is a
    name, or a command with the dot of a named command behind it. -/
def HasLabel (ts : List Token) (t : Token) (behind : List Token) : Prop :=
  t.kind = .ident ∨ isCommand t.kind ∧ ∃ d ∈ behind.head?, IsDotOfNamed ts d

/-- What a token `t` carries, with the tokens `behind` behind it, that the filter has
    made of the tokens `ts`. A name carries its label, a number a value within bounds,
    a text its content, and a command the label of a name that follows further on if
    it was a named command. All others carry nothing. -/
structure PayloadFits (ts : List Token) (t : Token) (behind : List Token) : Prop where
  ne_eof : t.kind ≠ .eof
  label_iff : (∃ label, t.payload = some (.label label)) ↔ HasLabel ts t behind
  number_iff : (∃ value, t.payload = some (.number value)) ↔ t.kind = .number
  text_iff : (∃ content, t.payload = some (.text content)) ↔ t.kind = .str
  eq_none : ¬HasLabel ts t behind → t.kind ≠ .number → t.kind ≠ .str → t.payload = none
  isName : ∀ label, t.kind = .ident → t.payload = some (.label label) →
    label = "fun/String" ∨ Word.IsName label
  bounds : ∀ value, t.payload = some (.number value) →
    -(2 ^ 63 - 1) ≤ value.toInt ∧ value.toInt ≤ 2 ^ 63 - 1
  leadsToName : ∀ label, isCommand t.kind → t.payload = some (.label label) →
    LeadsToName label behind

/-- A token with a payload that goes with its kind, unless it is a command with the
    dot of a named one behind it. -/
theorem PayloadFits.of_fits {ts behind : List Token} {t : Token} (h : Fits t.kind t.payload)
    (hdot : isCommand t.kind → ∀ d ∈ behind.head?, ¬IsDotOfNamed ts d) :
    PayloadFits ts t behind := by
  have hlabel : HasLabel ts t behind ↔ t.kind = .ident := by
    refine ⟨?_, .inl⟩
    rintro (hident | ⟨hcommand, d, hd, hdot'⟩)
    · exact hident
    · exact absurd hdot' (hdot hcommand d hd)
  obtain ⟨kind, payload, span⟩ := t
  cases h with
  | nothing hkind =>
    have hne {k : TokenKind} (hk : ¬k.isBare) : kind ≠ k := TokenKind.ne_of_isBare hkind hk
    exact
      { ne_eof := hne nofun
        label_iff := ⟨nofun, fun h => absurd (hlabel.1 h) (hne nofun)⟩
        number_iff := ⟨nofun, fun h => absurd h (hne nofun)⟩
        text_iff := ⟨nofun, fun h => absurd h (hne nofun)⟩
        eq_none := fun _ _ _ => rfl
        isName := nofun
        bounds := nofun
        leadsToName := nofun }
  | @label l hl =>
    exact
      { ne_eof := nofun
        label_iff := ⟨fun _ => .inl rfl, fun _ => ⟨l, rfl⟩⟩
        number_iff := ⟨nofun, nofun⟩
        text_iff := ⟨nofun, nofun⟩
        eq_none := fun h => absurd (.inl rfl) h
        isName := by
          rintro _ - ⟨⟩
          exact hl
        bounds := nofun
        leadsToName := nofun }
  | @number value hvalue =>
    exact
      { ne_eof := nofun
        label_iff := ⟨nofun, fun h => nomatch hlabel.1 h⟩
        number_iff := ⟨fun _ => rfl, fun _ => ⟨value, rfl⟩⟩
        text_iff := ⟨nofun, nofun⟩
        eq_none := fun _ h => absurd rfl h
        isName := nofun
        bounds := by
          rintro _ ⟨⟩
          exact ⟨hvalue, Int.le_sub_one_of_lt value.toInt_lt⟩
        leadsToName := nofun }
  | text content =>
    exact
      { ne_eof := nofun
        label_iff := ⟨nofun, fun h => nomatch hlabel.1 h⟩
        number_iff := ⟨nofun, nofun⟩
        text_iff := ⟨fun _ => rfl, fun _ => ⟨content, rfl⟩⟩
        eq_none := fun _ _ h => absurd rfl h
        isName := nofun
        bounds := nofun
        leadsToName := nofun }

/-- The clauses behind a dot lead to their name. -/
theorem leadsToName_turned {name dot : Token} {label : String} {cs : List (Token × Token)}
    (hdot : dot.kind = .dot) (hname : name.kind = .ident)
    (hlabel : name.payload = some (.label label)) (hcs : ∀ c ∈ cs, IsClause c)
    (behind : List Token) : LeadsToName label (dot :: (turned name cs ++ name :: behind)) := by
  induction cs generalizing dot with
  | nil => exact .name hdot hname hlabel
  | cons c cs ih =>
    rw [List.forall_mem_cons] at hcs
    exact .command hdot hcs.1.2 (ih rfl hcs.2)

/-- A command with a name. -/
theorem PayloadFits.of_command {ts earlier later behind : List Token} {name : Token}
    {cs cs' : List (Token × Token)} {c : Token × Token}
    (hts : ts = earlier ++ name :: (written (cs ++ c :: cs') ++ later)) (hname : name.kind = .ident)
    (hfits : Fits name.kind name.payload) (hclauses : ∀ c' ∈ cs ++ c :: cs', IsClause c') :
    PayloadFits ts (c.2.withPayload name.payload)
      (c.1.withKind .dot :: (turned name cs' ++ name :: behind)) := by
  obtain ⟨hcs, hclauses⟩ := List.forall_mem_append.1 hclauses
  obtain ⟨hc, hcs'⟩ := List.forall_mem_cons.1 hclauses
  have hcommand : isCommand (c.2.withPayload name.payload).kind := hc.2
  have hne {k : TokenKind} (hk : ¬k.isBare) : (c.2.withPayload name.payload).kind ≠ k :=
    TokenKind.ne_of_isBare (TokenKind.isBare_of_isCommand hcommand) hk
  rw [hname] at hfits
  obtain ⟨label, hlabel⟩ := hfits.exists_label
  have hdot : IsDotOfNamed ts (c.1.withKind .dot) := by
    refine ⟨earlier, name, cs, c.1, c.2, written cs' ++ later, ?_, hname, hcs, hc, rfl⟩
    rw [hts, written_append, List.append_assoc]
    rfl
  have hlabels : HasLabel ts (c.2.withPayload name.payload)
      (c.1.withKind .dot :: (turned name cs' ++ name :: behind)) := .inr ⟨hcommand, _, rfl, hdot⟩
  have hpayload : (c.2.withPayload name.payload).payload = some (.label label) := hlabel
  exact
    { ne_eof := hne nofun
      label_iff := ⟨fun _ => hlabels, fun _ => ⟨label, hpayload⟩⟩
      number_iff := by
        rw [hpayload]
        exact ⟨nofun, fun h => absurd h (hne nofun)⟩
      text_iff := by
        rw [hpayload]
        exact ⟨nofun, fun h => absurd h (hne nofun)⟩
      eq_none := fun h => absurd hlabels h
      isName := fun _ h => absurd h (hne nofun)
      bounds := by
        rw [hpayload]
        exact nofun
      leadsToName := by
        rintro _ - h
        cases hpayload.symm.trans h
        exact leadsToName_turned rfl hname hlabel hcs' behind }

/-- Tokens carry what they should when they are handed out, if what goes with their
    kinds was all they carried before the layer of declarations. -/
theorem HandedOut.payloadFits {ts us behind : List Token} {o : Token}
    (h : HandedOut Merges us o behind) (hus : List.Forall₂ Declares ts us) (hts : InOrder ts)
    (hfits : ∀ t ∈ ts, Fits t.kind t.payload) : PayloadFits ts o behind := by
  have hfits' := fits_of_declares hus hfits
  cases h with
  | @made earlier r later behind u o hsplit hr hbehind =>
    refine .of_fits (hr.fits fun t ht => hfits' t ?_) fun _ d hd hdot => ?_
    · rw [hsplit, List.append_cons]
      exact List.mem_append_right _ (List.mem_append_left _ ht)
    · -- The dot was scanned as a dot.
      have hkind : d.kind = .dot := by
        obtain ⟨_, _, _, _, _, _, _, _, _, _, rfl⟩ := hdot
        rfl
      obtain ⟨rest, rfl⟩ : ∃ rest, behind = d :: rest := List.head?_eq_some_iff.1 hd
      have hd : d ∈ us := by
        rw [hsplit, List.append_cons]
        exact List.mem_append_right _ (List.mem_append_right _ (hbehind.mem_of_dot hkind))
      obtain ⟨t, ht, rfl | ⟨q, -, rfl⟩⟩ := exists_of_mem_declares hus hd
      · exact hts.not_isDotOfNamed ht hdot
      · cases hkind
  | @command earlier later behind name cs cs' c hsplit hname hclauses =>
    -- No token of a named command is a declaring quantifier.
    rw [hsplit, ← List.cons_append] at hus
    obtain ⟨earlier', _, rfl, -, hrest⟩ := exists_of_forall₂_append hus
    obtain ⟨named, later', rfl, hnamed, -⟩ := exists_of_forall₂_append hrest
    obtain rfl := eq_of_declares hnamed (List.forall_mem_cons.2
      ⟨hname ▸ nofun, written_ne_declares hclauses⟩)
    exact .of_command rfl hname (hfits name (by simp)) hclauses
  | @dot earlier later behind name cs cs' c hsplit hname hclauses =>
    have hcolon : c.1 ∈ us := by simp [hsplit, written]
    have hkind := (hclauses c (by simp)).1
    exact .of_fits ((hfits' c.1 hcolon).of_isBare (hkind ▸ rfl) rfl) nofun
  | @name earlier later behind name hsplit hname =>
    refine .of_fits (hfits' o ?_) fun hcommand => ?_
    · rw [hsplit]
      exact List.mem_append_right _ List.mem_cons_self
    · rw [hname] at hcommand
      cases hcommand

/-! ## The filter -/

/-- What the filter makes of a text carries what it should: from the kind of a token,
    and for a command from the dot behind it, one can tell what it carries. -/
theorem filterText_payloadFits {text : String} {out : List Token}
    (h : filterText text = .ok out) : ∃ ts, tokenize text = .ok ts ∧
      ∀ before t behind, out = before ++ t :: behind → PayloadFits ts t behind := by
  obtain ⟨ts, htokens, rfl⟩ := exists_tokenize_of_filterText h
  obtain ⟨mark, body, gs, -, -, hgs, rfl⟩ := exists_segmented htokens
  refine ⟨_, htokens, fun before t behind hsplit => ?_⟩
  have hplace := (arranged_upper (Layer.declarations.rewrite _)).handedOut hsplit
  exact hplace.payloadFits (forall₂_declares none _) hgs.inOrder
    fun t ht => (spellable_of_tokenize htokens t ht).fits

/-- A name with two commands, a negative number, a text, a qualified name, and a
    command without a name that has a dot behind it. -/
theorem filterText_payloadFits_of_each_sort :
    let text := "a: run: check = - 7 \"s\" fun / String run . b"
    let t (kind : TokenKind) (payload : Option Payload) (start stop : Nat) : Token :=
      ⟨kind, payload, ⟨none, ⟨1, start⟩, ⟨1, stop⟩⟩⟩
    let out := [t (.keyword .run) (some (.label "a")) 4 6, t .dot none 2 2,
      t (.keyword .check) (some (.label "a")) 9 13, t .dot none 7 7,
      t .ident (some (.label "a")) 1 1, t (.relation .equal) none 15 15,
      t .number (some (.number (-7))) 17 19, t .str (some (.text "s")) 21 23,
      t .ident (some (.label "fun/String")) 25 36, t (.keyword .run) none 38 40, t .dot none 42 42,
      t .ident (some (.label "b")) 44 44]
    filterText text = .ok out ∧ ∃ ts, tokenize text = .ok ts ∧
      ∀ before t behind, out = before ++ t :: behind → PayloadFits ts t behind := by
  intro text t out
  have h : filterText text = .ok out := by decide +kernel
  exact ⟨h, filterText_payloadFits h⟩

end AlloyLexical

import AlloyLexical.Proofs.Layer.Delivery

/-!
# Looking ahead far enough

A layer looks ahead until its outlook is settled. What it delivers then is what
it would deliver with all tokens of its source at hand: nothing that follows the
tokens it has seen makes a difference (`Layer.deliver_append`).

Where the tokens come to an end before the outlook is settled, the end token
makes no difference either. It shares this with the tokens of many other kinds,
the *barriers*: no layer makes anything of a barrier and its neighbours, so that
what is behind a barrier has no part in what is delivered before it
(`Layer.deliver_append_barrier`).

Of the layers, that of declarations looks ahead over names without bound. Its
outlooks are the places in the head of a declaration, and `advance_name` to
`advance_head` say that each of them expects what may come there or else what
the next one expects.
-/

namespace AlloyLexical

/-- A delivery, with further tokens behind those it leaves. -/
def extend (d : Token × List Token) (us : List Token) : Token × List Token := (d.1, d.2 ++ us)

@[simp] theorem extend_mk (t : Token) (ts us : List Token) :
    extend (t, ts) us = (t, ts ++ us) := rfl

/-! ## Barriers -/

namespace TokenKind

/-- Whether no layer asks for tokens of the given kind, in hand, ahead or as the
    last one handed out. -/
def isBarrier : TokenKind → Bool
  | quantifier _ | relation _ | bareArrow | not | slash | minus | comma | colon => false
  | keyword .set | keyword .privateKw | keyword .disj | keyword .part | keyword .exh => false
  | keyword .run | keyword .check | keyword .pred | keyword .funKw => false
  | k => !k.endsOperand

variable {k : TokenKind}

theorem ne_of_isBarrier (h : k.isBarrier) {k' : TokenKind} (h' : k'.isBarrier = false) :
    k ≠ k' := by
  rintro rfl
  rw [h] at h'
  cases h'

theorem declaring?_of_isBarrier (h : k.isBarrier) : k.declaring? = none := by
  cases k <;> first | rfl | cases h

theorem negated?_of_isBarrier (h : k.isBarrier) : k.negated? = none := by
  cases k <;> first | rfl | cases h

theorem not_isMultiplicity_of_isBarrier (h : k.isBarrier) : k.isMultiplicity = false := by
  rw [isMultiplicity, multiplicity?.eq_def]
  split <;> first | rfl | cases h

theorem not_endsOperand_of_isBarrier (h : k.isBarrier) : k.endsOperand = false := by
  rw [isBarrier.eq_def] at h
  split at h <;> simp_all

theorem not_isCommand_of_isBarrier (h : k.isBarrier) : Commands.isCommand k = false := by
  rw [Commands.isCommand.eq_def]
  split <;> first | rfl | cases h

end TokenKind

namespace Outlook

theorem through_cons (q : Outlook) (t : Token) (ts : List Token) :
    q.through (t :: ts) = (q.advance t.kind).bind (·.through ts) := by
  rw [through]
  split
  · next h => rw [h, Option.bind_none]
  · next q' h => rw [h, Option.bind_some]

theorem through_append_eof (q : Outlook) (ts : List Token) {z : Token} (hz : z.kind = .eof) :
    q.through (ts ++ [z]) = none := by
  rw [through_append]
  cases q.through ts with
  | none => rfl
  | some q' => rw [Option.bind_some, through_cons, hz, advance_eof, Option.bind_none]

/-! ## Places in the head of a declaration -/

theorem advance_separator (k : TokenKind) :
    separator.advance k = if k = .comma then some name else none := by
  rw [advance.eq_def]
  split <;> simp_all

theorem advance_name (k : TokenKind) :
    name.advance k = if k = .ident then some separator else none := by
  rw [advance.eq_def]
  split <;> simp_all

theorem advance_disposition (k : TokenKind) :
    disposition.advance k =
      if Declarations.isDisposition k then some name else name.advance k := by
  rw [advance_name]
  rw [advance.eq_def]
  split <;> simp_all [Declarations.isDisposition]

theorem advance_head (k : TokenKind) :
    head.advance k =
      if k = .keyword .privateKw then some disposition else disposition.advance k := by
  rw [advance_disposition, advance_name]
  rw [advance.eq_def]
  split <;> simp_all [Declarations.isDisposition]

end Outlook

/-! ## Declarations -/

namespace Declarations

/-- Whether tokens of the given kind have a place in the head of a declaration. -/
def hasPlace : TokenKind → Bool
  | .keyword .privateKw | .ident | .comma | .colon => true
  | k => isDisposition k

theorem ne_of_not_hasPlace {k k' : TokenKind} (h : hasPlace k = false) (h' : hasPlace k') :
    k ≠ k' := by
  rintro rfl
  rw [h] at h'
  cases h'

theorem not_isDisposition_of_not_hasPlace {k : TokenKind} (h : hasPlace k = false) :
    isDisposition k = false := by
  rw [isDisposition.eq_def]
  split <;> first | rfl | cases h

theorem not_hasPlace_of_isBarrier {k : TokenKind} (h : k.isBarrier) : hasPlace k = false := by
  rw [hasPlace.eq_def]
  split
  case h_5 =>
    rw [isDisposition.eq_def]
    split <;> first | rfl | cases h
  all_goals cases h

theorem startsWithNames_append {ts : List Token} (us : List Token)
    (h : Outlook.name.through ts = none) : startsWithNames (ts ++ us) = startsWithNames ts := by
  fun_induction startsWithNames ts with
  | case1 t u ts ih =>
    rw [Outlook.through_cons, Outlook.advance_name] at h
    simp only [List.cons_append, startsWithNames]
    by_cases ht : t.kind = .ident
    · rw [if_pos ht, Option.bind_some, Outlook.through_cons, Outlook.advance_separator] at h
      by_cases hu : u.kind = .comma
      · rw [if_pos hu, Option.bind_some] at h
        rw [ih h]
      · simp [hu]
    · simp [ht]
  | case2 ts hts =>
    rcases ts with _ | ⟨t, _ | ⟨u, ts⟩⟩
    · cases h
    · rw [Outlook.through_cons, Outlook.advance_name] at h
      have ht : t.kind ≠ .ident := by
        intro ht
        rw [if_pos ht] at h
        cases h
      cases us <;> simp [startsWithNames, ht]
    · exact absurd rfl (hts t u ts)

/-- What has no place in a head, and what is behind it, have no part in one. -/
theorem startsWithNames_append_foreign (ts us : List Token) {t : Token}
    (ht : hasPlace t.kind = false) : startsWithNames (ts ++ t :: us) = startsWithNames ts := by
  have hident : t.kind ≠ .ident := ne_of_not_hasPlace ht rfl
  have hcolon : t.kind ≠ .colon := ne_of_not_hasPlace ht rfl
  have hcomma : t.kind ≠ .comma := ne_of_not_hasPlace ht rfl
  fun_induction startsWithNames ts with
  | case1 t u ts ih => simp only [List.cons_append, startsWithNames, ih]
  | case2 ts hts =>
    rcases ts with _ | ⟨t, _ | ⟨u, ts⟩⟩
    · cases us <;> simp [startsWithNames, hident]
    · simp [startsWithNames, hcolon, hcomma]
    · exact absurd rfl (hts t u ts)

theorem startsWithHead_append {ts : List Token} (us : List Token)
    (h : Outlook.head.through ts = none) : startsWithHead (ts ++ us) = startsWithHead ts := by
  have hdisposition : ∀ {ts : List Token}, Outlook.disposition.through ts = none →
      startsWithNames (dropDisposition (ts ++ us)) = startsWithNames (dropDisposition ts) := by
    rintro (_ | ⟨t, ts⟩) h
    · cases h
    · rw [Outlook.through_cons, Outlook.advance_disposition] at h
      simp only [List.cons_append, dropDisposition]
      split
      · next ht =>
        rw [if_pos ht, Option.bind_some] at h
        exact startsWithNames_append us h
      · next ht =>
        rw [if_neg ht, ← Outlook.through_cons] at h
        exact startsWithNames_append us h
  rcases ts with _ | ⟨t, ts⟩
  · cases h
  · rw [Outlook.through_cons, Outlook.advance_head] at h
    simp only [startsWithHead, List.cons_append, dropPrivate]
    split
    · next ht =>
      rw [if_pos ht, Option.bind_some] at h
      exact hdisposition h
    · next ht =>
      rw [if_neg ht, ← Outlook.through_cons] at h
      exact hdisposition h

theorem startsWithHead_append_foreign (ts us : List Token) {t : Token}
    (ht : hasPlace t.kind = false) : startsWithHead (ts ++ t :: us) = startsWithHead ts := by
  have hprivate : dropPrivate (ts ++ t :: us) = dropPrivate ts ++ t :: us := by
    rcases ts with _ | ⟨t', ts⟩
    · exact if_neg (ne_of_not_hasPlace ht rfl)
    · simp only [List.cons_append, dropPrivate]
      split <;> rfl
  have hdisposition : ∀ ts, dropDisposition (ts ++ t :: us) = dropDisposition ts ++ t :: us := by
    rintro (_ | ⟨t', ts⟩)
    · simp [dropDisposition, not_isDisposition_of_not_hasPlace ht]
    · simp only [List.cons_append, dropDisposition]
      split <;> rfl
  rw [startsWithHead, hprivate, hdisposition, startsWithNames_append_foreign _ us ht,
    startsWithHead]

theorem deliver_append {last : Option TokenKind} {t : Token} {ts : List Token} (us : List Token)
    (h : (outlook last t).bind (·.through ts) = none) :
    deliver last t (ts ++ us) = extend (deliver last t ts) us := by
  rw [deliver.eq_def, deliver.eq_def]
  split
  · next kind hkind =>
    by_cases hlast : last = some .colon
    · simp [hlast]
    · rw [outlook, if_pos ⟨hlast, by rw [hkind]; rfl⟩, Option.bind_some] at h
      rw [startsWithHead_append us h]
      split <;> rfl
  · rfl

theorem deliver_append_foreign (last : Option TokenKind) (t : Token) (ts us : List Token)
    {t' : Token} (ht' : hasPlace t'.kind = false) :
    deliver last t (ts ++ t' :: us) = extend (deliver last t ts) (t' :: us) := by
  rw [deliver.eq_def, deliver.eq_def]
  rw [startsWithHead_append_foreign ts us ht']
  split
  · split <;> rfl
  · rfl

end Declarations

/-! ## Commands -/

namespace Commands

theorem deliver_append {t : Token} {ts : List Token} (us : List Token)
    (h : (outlook t).bind (·.through ts) = none) :
    deliver t (ts ++ us) = extend (deliver t ts) us := by
  by_cases ht : t.kind = .ident
  · rw [outlook, if_neg (by simp [ht]), Option.bind_some] at h
    rcases ts with _ | ⟨u, _ | ⟨v, ts⟩⟩
    · cases h
    · -- A single token settles the matter only if it is an end token.
      have hu : u.kind ≠ .colon := by
        intro hu
        rw [Outlook.through_cons, hu] at h
        cases h
      have hname : ¬NamesCommand (t :: u :: us) := by
        rintro ⟨-, hclause⟩
        obtain ⟨_, _, _, heq, hcolon, -⟩ := exists_of_startsClause hclause
        exact hu ((List.cons.inj heq).1 ▸ hcolon)
      rw [List.singleton_append, deliver_of_not_named hname]
      rfl
    · simp only [List.cons_append, deliver]
      split <;> rfl
  · rw [deliver_of_not_named fun h => ht h.1, deliver_of_not_named fun h => ht h.1, extend_mk]

theorem deliver_append_barrier (t : Token) (ts us : List Token) {b : Token}
    (hb : b.kind.isBarrier) : deliver t (ts ++ b :: us) = extend (deliver t ts) (b :: us) := by
  rcases ts with _ | ⟨u, _ | ⟨v, ts⟩⟩
  · have hname : ¬NamesCommand (t :: b :: us) := by
      rintro ⟨-, hclause⟩
      obtain ⟨_, _, _, heq, hcolon, -⟩ := exists_of_startsClause hclause
      exact TokenKind.ne_of_isBarrier hb rfl ((List.cons.inj heq).1 ▸ hcolon)
    exact deliver_of_not_named hname
  · have hname : ¬NamesCommand (t :: u :: b :: us) := by
      rintro ⟨-, -, hcommand⟩
      rw [TokenKind.not_isCommand_of_isBarrier hb] at hcommand
      cases hcommand
    exact deliver_of_not_named hname
  · simp only [List.cons_append, deliver]
    split <;> rfl

end Commands

/-! ## Operators -/

namespace Operators

theorem negate_append (t : Token) {ts : List Token} (us : List Token)
    (h : Outlook.one.through ts = none) : negate t (ts ++ us) = extend (negate t ts) us := by
  rcases ts with _ | ⟨u, ts⟩
  · cases h
  · simp only [List.cons_append, negate]
    split <;> rfl

theorem qualify_append (t : Token) {ts : List Token} (us : List Token)
    (h : Outlook.member.through ts = none) : qualify t (ts ++ us) = extend (qualify t ts) us := by
  rcases ts with _ | ⟨u, _ | ⟨v, ts⟩⟩
  · cases h
  · have hu : u.kind ≠ .slash := by
      intro hu
      rw [Outlook.through_cons, hu] at h
      cases h
    cases us <;> simp [qualify, hu]
  · simp only [List.cons_append, qualify]
    split
    · split <;> rfl
    · rfl

theorem arrow_append (left : Option TokenKind) (t u : Token) {ts : List Token} (us : List Token)
    (h : Outlook.one.through ts = none) :
    arrow left t u (ts ++ us) = extend (arrow left t u ts) us := by
  rcases ts with _ | ⟨v, ts⟩
  · cases h
  · simp only [List.cons_append, arrow]
    split <;> rfl

theorem multiply_append (t : Token) {ts : List Token} (us : List Token)
    (h : Outlook.arrow.through ts = none) :
    multiply t (ts ++ us) = extend (multiply t ts) us := by
  rcases ts with _ | ⟨u, ts⟩
  · cases h
  · simp only [List.cons_append, multiply]
    split
    · next hu =>
      rw [Outlook.through_cons, hu] at h
      exact arrow_append _ t u us h
    · rfl

theorem deliver_append {t : Token} {ts : List Token} (us : List Token)
    (h : (outlook t).bind (·.through ts) = none) :
    deliver t (ts ++ us) = extend (deliver t ts) us := by
  rw [outlook.eq_def] at h
  rw [deliver.eq_def, deliver.eq_def]
  split
  · next ht =>
    rw [ht] at h
    exact negate_append t us h
  · next ht =>
    rw [ht] at h
    exact qualify_append t us h
  · next ht =>
    rw [ht] at h
    exact qualify_append t us h
  · next ht =>
    rw [ht] at h
    exact arrow_append none t t us h
  · split
    · next hmul =>
      split at h <;> simp_all
      exact multiply_append t us h
    · rfl

section

variable {b : Token} (hb : b.kind.isBarrier) (ts us : List Token)

include hb

theorem negate_append_barrier (t : Token) :
    negate t (ts ++ b :: us) = extend (negate t ts) (b :: us) := by
  rcases ts with _ | ⟨u, ts⟩
  · simp [negate, TokenKind.negated?_of_isBarrier hb]
  · simp only [List.cons_append, negate]
    split <;> rfl

theorem member?_of_isBarrier (t : Token) : member? t b = none := by
  have hname : b.name? = none := if_neg (TokenKind.ne_of_isBarrier hb rfl)
  simp [member?, hname]

theorem qualify_append_barrier (t : Token) :
    qualify t (ts ++ b :: us) = extend (qualify t ts) (b :: us) := by
  rcases ts with _ | ⟨u, _ | ⟨v, ts⟩⟩
  · have hslash : b.kind ≠ .slash := TokenKind.ne_of_isBarrier hb rfl
    cases us <;> simp [qualify, hslash]
  · simp [qualify, member?_of_isBarrier hb]
  · simp only [List.cons_append, qualify]
    split
    · split <;> rfl
    · rfl

theorem arrow_append_barrier (left : Option TokenKind) (t u : Token) :
    arrow left t u (ts ++ b :: us) = extend (arrow left t u ts) (b :: us) := by
  rcases ts with _ | ⟨v, ts⟩
  · simp [arrow, TokenKind.not_isMultiplicity_of_isBarrier hb]
  · simp only [List.cons_append, arrow]
    split <;> rfl

theorem multiply_append_barrier (t : Token) :
    multiply t (ts ++ b :: us) = extend (multiply t ts) (b :: us) := by
  rcases ts with _ | ⟨u, ts⟩
  · exact if_neg (TokenKind.ne_of_isBarrier hb rfl)
  · simp only [List.cons_append, multiply]
    split
    · exact arrow_append_barrier hb ts us _ t u
    · rfl

theorem deliver_append_barrier (t : Token) :
    deliver t (ts ++ b :: us) = extend (deliver t ts) (b :: us) := by
  rw [deliver.eq_def, deliver.eq_def]
  split
  · exact negate_append_barrier hb ts us t
  · exact qualify_append_barrier hb ts us t
  · exact qualify_append_barrier hb ts us t
  · exact arrow_append_barrier hb ts us none t t
  · split
    · exact multiply_append_barrier hb ts us t
    · rfl

end

end Operators

/-! ## Signs -/

namespace Signs

theorem deliver_append {last : Option TokenKind} {t : Token} {ts : List Token} (us : List Token)
    (h : (outlook last t).bind (·.through ts) = none) :
    deliver last t (ts ++ us) = extend (deliver last t ts) us := by
  rw [outlook.eq_def] at h
  rw [deliver.eq_def, deliver.eq_def]
  split
  · next ht =>
    rw [if_pos ht, Option.bind_some] at h
    rcases ts with _ | ⟨u, ts⟩
    · cases h
    · simp only [List.cons_append, sign]
      split <;> rfl
  · rfl

theorem deliver_append_barrier (last : Option TokenKind) (t : Token) (ts us : List Token)
    {b : Token} (hb : b.kind.isBarrier) :
    deliver last t (ts ++ b :: us) = extend (deliver last t ts) (b :: us) := by
  rw [deliver.eq_def, deliver.eq_def]
  split
  · rcases ts with _ | ⟨u, ts⟩
    · have hvalue : value? b = none := if_neg (TokenKind.ne_of_isBarrier hb rfl)
      simp [sign, hvalue]
    · simp only [List.cons_append, sign]
      split <;> rfl
  · rfl

end Signs

/-! ## All layers -/

namespace Layer

/-- What a layer with the token `t` in hand waits for after the tokens `ts`;
    none if they settle the matter. -/
def awaits (l : Layer) (last : Option TokenKind) (t : Token) (ts : List Token) : Option Outlook :=
  (l.outlook last t).bind (·.through ts)

theorem awaits_append (l : Layer) (last : Option TokenKind) (t : Token) (ts us : List Token) :
    l.awaits last t (ts ++ us) = (l.awaits last t ts).bind (·.through us) := by
  rw [awaits, awaits, Option.bind_assoc]
  congr 1
  funext q
  exact q.through_append ts us

/-- What settles the matter decides what is delivered, whatever follows. -/
theorem deliver_append {l : Layer} {last : Option TokenKind} {t : Token} {ts : List Token}
    (us : List Token) (h : l.awaits last t ts = none) :
    l.deliver last t (ts ++ us) = extend (l.deliver last t ts) us := by
  cases l with
  | declarations => exact Declarations.deliver_append us h
  | commands => exact Commands.deliver_append us h
  | operators => exact Operators.deliver_append us h
  | signs => exact Signs.deliver_append us h

/-- A barrier and what is behind it have no part in what is delivered. -/
theorem deliver_append_barrier (l : Layer) (last : Option TokenKind) (t : Token)
    (ts us : List Token) {b : Token} (hb : b.kind.isBarrier) :
    l.deliver last t (ts ++ b :: us) = extend (l.deliver last t ts) (b :: us) := by
  cases l with
  | declarations =>
    exact Declarations.deliver_append_foreign last t ts us
      (Declarations.not_hasPlace_of_isBarrier hb)
  | commands => exact Commands.deliver_append_barrier t ts us hb
  | operators => exact Operators.deliver_append_barrier hb ts us t
  | signs => exact Signs.deliver_append_barrier last t ts us hb

/-- An end token has no part in what is delivered. -/
theorem deliver_append_eof (l : Layer) (last : Option TokenKind) (t : Token) (ts : List Token)
    {z : Token} (hz : z.kind = .eof) :
    l.deliver last t (ts ++ [z]) = extend (l.deliver last t ts) [z] :=
  l.deliver_append_barrier last t ts [] (by rw [hz]; rfl)

/-- An end token in hand settles the matter. -/
theorem outlook_of_eof (l : Layer) (last : Option TokenKind) {z : Token} (hz : z.kind = .eof) :
    l.outlook last z = none := by
  cases l with
  | declarations => simp [outlook, Declarations.outlook, hz, TokenKind.declaring?]
  | commands => simp [outlook, Commands.outlook, hz]
  | operators =>
    simp [outlook, Operators.outlook, hz, TokenKind.isMultiplicity, TokenKind.multiplicity?]
  | signs => simp [outlook, Signs.outlook, hz]

/-- An end token at hand settles the matter. -/
theorem awaits_append_eof (l : Layer) (last : Option TokenKind) (t : Token) (ts : List Token)
    {z : Token} (hz : z.kind = .eof) : l.awaits last t (ts ++ [z]) = none := by
  rw [awaits]
  cases l.outlook last t with
  | none => rfl
  | some q => exact q.through_append_eof ts hz

end Layer

end AlloyLexical

import AlloyLexical.Layer

/-!
# What a delivery is made of

Each layer hands out a token made of the one in hand and, for some layers, of
tokens behind it. For each layer this is said once, so that what is proved of
layers further on needs no look at how they are built:

* the layer of declarations changes at most the kind of the token in hand, from
  a quantifier's to its declaring kind (`Declarations.Declares`);
* the layers of operators and of signs take a run of tokens off those at hand
  and merge it into one (`Operators.Merges`, `Signs.Merges`);
* the layer of commands moves tokens, but loses none
  (`Commands.length_deliver`).
-/

namespace AlloyLexical

/-- A delivery from the tokens `ts` takes a run off their head, and `P` says
    which token may be made of which run. -/
def TakesRun (P : List Token → Token → Prop) (ts : List Token) (d : Token × List Token) : Prop :=
  ∃ r, ts = r ++ d.2 ∧ P r d.1

/-! ## Declarations -/

namespace Declarations

/-- The token `u` is `t`, possibly as a declaring quantifier. -/
def Declares (t u : Token) : Prop :=
  u = t ∨ ∃ q, t.kind = .quantifier q ∧ u = t.withKind (.declares q)

theorem declares_deliver (last : Option TokenKind) (t : Token) (ts : List Token) :
    Declares t (deliver last t ts).1 := by
  rw [deliver]
  split
  · next kind hkind =>
    split
    · obtain ⟨q, hq, rfl⟩ := TokenKind.exists_of_declaring? hkind
      exact .inr ⟨q, hq, rfl⟩
    · exact .inl rfl
  · exact .inl rfl

end Declarations

/-! ## Commands -/

namespace Commands

/-- Whether tokens begin with a colon and a command. -/
def StartsClause : List Token → Prop
  | u :: v :: _ => u.kind = .colon ∧ isCommand v.kind
  | _ => False

/-- Whether tokens begin with the name of a command, a colon and the command. -/
def NamesCommand : List Token → Prop
  | t :: ts => t.kind = .ident ∧ StartsClause ts
  | [] => False

theorem deliver_of_not_named {t : Token} {ts : List Token} (h : ¬NamesCommand (t :: ts)) :
    deliver t ts = (t, ts) := by
  rcases ts with _ | ⟨u, _ | ⟨v, us⟩⟩
  · rfl
  · rfl
  · exact if_neg h

theorem deliver_of_named {t u v : Token} (ts : List Token) (h : NamesCommand (t :: u :: v :: ts)) :
    deliver t (u :: v :: ts) = (v.withPayload t.payload, u.withKind .dot :: t :: ts) := if_pos h

theorem exists_of_startsClause {ts : List Token} (h : StartsClause ts) :
    ∃ u v us, ts = u :: v :: us ∧ u.kind = .colon ∧ isCommand v.kind := by
  rcases ts with _ | ⟨u, _ | ⟨v, us⟩⟩
  · exact h.elim
  · exact h.elim
  · exact ⟨u, v, us, rfl, h⟩

theorem length_deliver (t : Token) (ts : List Token) : (deliver t ts).2.length = ts.length := by
  by_cases h : NamesCommand (t :: ts)
  · obtain ⟨u, v, us, rfl, _⟩ := exists_of_startsClause h.2
    rw [deliver_of_named us h]
    rfl
  · rw [deliver_of_not_named h]

end Commands

/-! ## Operators -/

namespace Operators

/-- The runs of tokens that make an operator, each with its merged token, and
    the single tokens that make none. -/
inductive Merges : List Token → Token → Prop
  | alone (t : Token) : Merges [t] t
  | negation {t u : Token} {kind : TokenKind} :
    t.kind = .not → u.kind.negated? = some kind → Merges [t, u] (merged t u kind)
  | member {t u v m : Token} : u.kind = .slash → member? t v = some m → Merges [t, u, v] m
  | arrowAfter {t u : Token} : t.kind.isMultiplicity → u.kind = .bareArrow →
    Merges [t, u] (merged t u (.arrowBetween (some t.kind) none))
  | arrowBefore {t u : Token} : t.kind = .bareArrow → u.kind.isMultiplicity →
    Merges [t, u] (merged t u (.arrowBetween none (some u.kind)))
  | arrowBetween {t u v : Token} :
    t.kind.isMultiplicity → u.kind = .bareArrow → v.kind.isMultiplicity →
    Merges [t, u, v] (merged t v (.arrowBetween (some t.kind) (some v.kind)))

theorem Merges.ne_nil {r : List Token} {m : Token} (h : Merges r m) : r ≠ [] := by
  rintro rfl
  cases h

theorem kind_of_member? {t v m : Token} (h : member? t v = some m) :
    m.kind = .totalOrder ∨ m.kind = .ident ∨ ∃ f, m.kind = .intFunction f := by
  rw [member?] at h
  split at h
  · exact .inl (by rw [← Option.some.inj h]; rfl)
  · exact .inr (.inl (by rw [← Option.some.inj h]))
  · obtain ⟨f, _, rfl⟩ := Option.map_eq_some_iff.1 h
    exact .inr (.inr ⟨f, rfl⟩)
  · cases h

/-- What is merged of several tokens is no end token, nor does it concern the
    layer of signs. -/
theorem Merges.alone_or {r : List Token} {m : Token} (h : Merges r m) :
    r = [m] ∨ (m.kind ≠ .eof ∧ m.kind ≠ .minus ∧ m.kind ≠ .number) := by
  rcases h with _ | ⟨_, hu⟩ | ⟨_, hm⟩ | _ | _ | _
  · exact .inl rfl
  · obtain ⟨k, -, rfl⟩ := TokenKind.exists_of_negated? hu
    exact .inr ⟨nofun, nofun, nofun⟩
  · right
    rcases kind_of_member? hm with h | h | ⟨f, h⟩ <;> rw [h] <;> exact ⟨nofun, nofun, nofun⟩
  all_goals exact .inr ⟨nofun, nofun, nofun⟩

theorem takes_alone (t : Token) (ts : List Token) : TakesRun Merges (t :: ts) (t, ts) :=
  ⟨[t], rfl, .alone t⟩

theorem takes_negate {t : Token} (ht : t.kind = .not) (ts : List Token) :
    TakesRun Merges (t :: ts) (negate t ts) := by
  rw [negate.eq_def]
  split
  · exact takes_alone t []
  · next u us =>
    split
    · next hu => exact ⟨[t, u], rfl, .negation ht hu⟩
    · exact takes_alone t _

theorem takes_qualify (t : Token) (ts : List Token) : TakesRun Merges (t :: ts) (qualify t ts) := by
  rw [qualify.eq_def]
  split
  · next u v us =>
    split
    · next hu =>
      split
      · next hm => exact ⟨[t, u, v], rfl, .member hu hm⟩
      · exact takes_alone t _
    · exact takes_alone t _
  · exact takes_alone t _

theorem takes_multiply {t : Token} (ht : t.kind.isMultiplicity) (ts : List Token) :
    TakesRun Merges (t :: ts) (multiply t ts) := by
  rw [multiply.eq_def]
  split
  · exact takes_alone t []
  · next u us =>
    split
    · next hu =>
      rw [arrow.eq_def]
      split
      · exact ⟨[t, u], rfl, .arrowAfter ht hu⟩
      · next v vs =>
        split
        · next hv => exact ⟨[t, u, v], rfl, .arrowBetween ht hu hv⟩
        · exact ⟨[t, u], rfl, .arrowAfter ht hu⟩
    · exact takes_alone t _

theorem takes_arrow {t : Token} (ht : t.kind = .bareArrow) (ts : List Token) :
    TakesRun Merges (t :: ts) (arrow none t t ts) := by
  -- An arrow that takes up nothing is merged with itself.
  have hself : merged t t (.arrowBetween none none) = t := by
    rw [show TokenKind.arrowBetween none none = t.kind from ht.symm, merged_self]
  rw [arrow.eq_def]
  split
  · rw [hself]
    exact takes_alone t []
  · next u us =>
    split
    · next hu => exact ⟨[t, u], rfl, .arrowBefore ht hu⟩
    · rw [hself]
      exact takes_alone t _

theorem takes_deliver (t : Token) (ts : List Token) : TakesRun Merges (t :: ts) (deliver t ts) := by
  rw [deliver]
  split
  · next ht => exact takes_negate ht ts
  · exact takes_qualify t ts
  · exact takes_qualify t ts
  · next ht => exact takes_arrow ht ts
  · split
    · next ht => exact takes_multiply ht ts
    · exact takes_alone t ts

end Operators

/-! ## Signs -/

namespace Signs

/-- The runs of a minus sign and a number, each with the signed number, and the
    single tokens. -/
inductive Merges : List Token → Token → Prop
  | alone (t : Token) : Merges [t] t
  | sign {t u : Token} {n : Int64} : t.kind = .minus → value? u = some n →
    Merges [t, u] ⟨.number, some (.number (-n)), t.span.merge u.span⟩

theorem takes_deliver (last : Option TokenKind) (t : Token) (ts : List Token) :
    TakesRun Merges (t :: ts) (deliver last t ts) := by
  rw [deliver]
  split
  · next ht =>
    rw [sign.eq_def]
    split
    · exact ⟨[t], rfl, .alone t⟩
    · next u us =>
      split
      · next n hu => exact ⟨[t, u], rfl, .sign ht.1 hu⟩
      · exact ⟨[t], rfl, .alone t⟩
  · exact ⟨[t], rfl, .alone t⟩

end Signs

end AlloyLexical

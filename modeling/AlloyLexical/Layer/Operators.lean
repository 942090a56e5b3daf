import AlloyLexical.Layer.Exchange
import AlloyLexical.Layer.Outlook

/-!
# Operators

Some operators are written in several tokens, which are merged into one:

* `!` or `not` before a relation makes the negated relation;
* the word `pred` or `fun` with a slash and a name behind it makes a member of a
  library: the total order, an integer function, or the signature `String`,
  which stays an identifier but takes its qualifier into its label;
* an arrow takes up the multiplicities beside it.

The merged token spans what it is made of. As many tokens are merged as can be,
from left to right: in `a one -> one -> b` the first arrow takes both words, and
the second arrow none.
-/

namespace AlloyLexical

namespace Operators

/-- The token from `first` to `last`, of the given kind. -/
def merged (first last : Token) (kind : TokenKind) : Token := (first.covering last).withKind kind

/-- The member of a library that a qualifier and a name make, if there is one of
    that name. -/
def member? (qualifier name : Token) : Option Token :=
  match qualifier.kind, name.name? with
  | .keyword .pred, some "totalOrder" => some (merged qualifier name .totalOrder)
  | .keyword .funKw, some "String" =>
    some ⟨.ident, some (.label "fun/String"), qualifier.span.merge name.span⟩
  | .keyword .funKw, some label =>
    (IntFunction.ofLabel? label).map fun f => merged qualifier name (.intFunction f)
  | _, _ => none

/-- A token merged with itself is unchanged. -/
@[simp] theorem merged_self (t : Token) : merged t t t.kind = t := by
  simp [merged, Token.covering, Token.withKind]

/-- A negation in hand, with a relation that follows it. -/
def negate (t : Token) : List Token → Token × List Token
  | [] => (t, [])
  | u :: us =>
    match u.kind.negated? with
    | some kind => (merged t u kind, us)
    | none => (t, u :: us)

/-- A qualifier in hand, with the member that follows it. -/
def qualify (t : Token) : List Token → Token × List Token
  | u :: v :: us =>
    if u.kind = .slash then
      match member? t v with
      | some member => (member, us)
      | none => (t, u :: v :: us)
    else (t, u :: v :: us)
  | ts => (t, ts)

/-- An arrow in hand, with the multiplicity that follows it. The arrow itself is
    `u`; the token `t` is where it begins, the multiplicity `left` before it or,
    if there is none, the arrow itself. -/
def arrow (left : Option TokenKind) (t u : Token) : List Token → Token × List Token
  | [] => (merged t u (.arrowBetween left none), [])
  | v :: vs =>
    if v.kind.isMultiplicity then (merged t v (.arrowBetween left (some v.kind)), vs)
    else (merged t u (.arrowBetween left none), v :: vs)

/-- A multiplicity in hand, with an arrow that follows it. -/
def multiply (t : Token) : List Token → Token × List Token
  | [] => (t, [])
  | u :: us => if u.kind = .bareArrow then arrow (some t.kind) t u us else (t, u :: us)

/-- A token in hand and what follows it, with an operator that it begins
    merged. -/
def deliver (t : Token) (ts : List Token) : Token × List Token :=
  match t.kind with
  | .not => negate t ts
  | .keyword .pred | .keyword .funKw => qualify t ts
  -- An arrow without a multiplicity before it begins with itself.
  | .bareArrow => arrow none t t ts
  | kind => if kind.isMultiplicity then multiply t ts else (t, ts)

/-! ## Deliveries are exchanges -/

theorem ne_eof_of_isMultiplicity {kind : TokenKind} (h : kind.isMultiplicity) : kind ≠ .eof := by
  rintro rfl
  cases h

theorem ne_eof_of_member? {t u m : Token} (h : member? t u = some m) :
    u.kind ≠ .eof ∧ m.kind ≠ .eof := by
  have hname : u.name? ≠ none := by
    rintro hnone
    simp [member?, hnone] at h
  refine ⟨fun hu => hname (by simp [Token.name?, hu]), ?_⟩
  rw [member?] at h
  split at h
  · cases h
    simp [merged, Token.withKind]
  · cases h
    simp
  · obtain ⟨f, -, rfl⟩ := Option.map_eq_some_iff.1 h
    simp [merged, Token.withKind]
  · cases h

theorem exchange_negate (t : Token) (ts : List Token) : Exchange t ts (negate t ts) := by
  rw [negate.eq_def]
  split
  · exact .alone t []
  · next u us =>
    split
    · next kind hu =>
      obtain ⟨r, hr, rfl⟩ := TokenKind.exists_of_negated? hu
      have hne : u.kind ≠ .eof := by
        rw [hr]
        exact fun h => by cases h
      exact .merging t (fun h => by cases h) (List.forall_mem_singleton.2 hne) us
    · exact .alone t _

theorem exchange_qualify (t : Token) (ts : List Token) : Exchange t ts (qualify t ts) := by
  rw [qualify.eq_def]
  split
  · next u v us =>
    split
    · next hu =>
      split
      · next m hm =>
        obtain ⟨hv, hm⟩ := ne_eof_of_member? hm
        exact @Exchange.merging t m hm [u, v] (by simp [hu, hv]) us
      · exact .alone t _
    · exact .alone t _
  · exact .alone t ts

theorem exchange_arrow (left : Option TokenKind) (t u : Token) (ts : List Token) :
    Exchange t ts (arrow left t u ts) := by
  rw [arrow.eq_def]
  split
  · exact .one (fun _ h => by cases h) []
  · next v vs =>
    split
    · next hv =>
      exact .merging t (fun h => by cases h)
        (List.forall_mem_singleton.2 (ne_eof_of_isMultiplicity hv)) vs
    · exact .one (fun _ h => by cases h) _

theorem exchange_multiply (t : Token) (ts : List Token) : Exchange t ts (multiply t ts) := by
  rw [multiply.eq_def]
  split
  · exact .alone t []
  · next u us =>
    split
    · next hu => exact (exchange_arrow (some t.kind) t u us).cons (by simp [hu])
    · exact .alone t _

theorem exchange_deliver (t : Token) (ts : List Token) : Exchange t ts (deliver t ts) := by
  rw [deliver]
  split
  · exact exchange_negate t ts
  · exact exchange_qualify t ts
  · exact exchange_qualify t ts
  · exact exchange_arrow none t t ts
  · split
    · exact exchange_multiply t ts
    · exact .alone t ts

/-- What the token waits for depends on the operator that it may begin. -/
def outlook (t : Token) : Option Outlook :=
  match t.kind with
  | .not | .bareArrow => some .one
  | .keyword .pred | .keyword .funKw => some .member
  | kind => if kind.isMultiplicity then some .arrow else none

end Operators

end AlloyLexical

import Mathlib.Computability.RegularExpressions
import AlloyLexical.Proofs.Filter.Conservation

/-!
# Declarations, found by a pattern

The head of a declaration is written as a regular expression over the kinds of
tokens, `Declarations.headPattern`. The layer of declarations knows nothing of
expressions: it drops what may be missing, and then goes from name to name. Both
find the same heads (`Declarations.startsWithHead_iff`), because

* what may be missing at the head of a pattern and is there is no part of the rest
  of it (`Declarations.begins_optional_iff`);
* what follows a name is a comma and again a name, or else the colon
  (`Declarations.matches_separatorPattern`).

So what becomes of a token is told by the token in front of it and by those behind
it, as they were given to the layer (`Declarations.getElem?_rewrite`). It makes no
difference that the layer remembers what it handed out instead: it makes no colon,
and leaves every colon as it is (`Declarations.rewriteFrom_cons_kind`). Nor does it
make or take away a head, and a second layer finds no more declarations than the
first (`Declarations.rewriteFrom_rewriteFrom`).
-/

namespace AlloyLexical

namespace Declarations

open RegularExpression (char)
open Computability

/-! ## The pattern of a head -/

/-- What follows a name in the head of a declaration: `(, name)* :`. -/
def separatorPattern : RegularExpression TokenKind :=
  RegularExpression.star (char .comma * char .ident) * char .colon

/-- The names in the head of a declaration: `name (, name)* :`. -/
def namePattern : RegularExpression TokenKind := char .ident * separatorPattern

/-- One of the words `disj`, `part` and `exh`. -/
def dispositionWord : RegularExpression TokenKind :=
  char (.keyword .disj) + char (.keyword .part) + char (.keyword .exh)

/-- The head of a declaration after the word `private`:
    `(disj | part | exh)? name (, name)* :`. -/
def dispositionPattern : RegularExpression TokenKind := (1 + dispositionWord) * namePattern

/-- The head of a declaration: `private? (disj | part | exh)? name (, name)* :`. -/
def headPattern : RegularExpression TokenKind :=
  (1 + char (.keyword .privateKw)) * dispositionPattern

/-! ## Beginning with a word -/

/-- Whether tokens begin with some whose kinds are a word of the language. -/
def Begins (L : Language TokenKind) (ts : List Token) : Prop :=
  ∃ w ∈ L, w <+: ts.map Token.kind

/-- The words of one kind each. -/
def ofKinds (P : TokenKind → Prop) : Language TokenKind := {w | ∃ k, P k ∧ w = [k]}

section

variable {L M : Language TokenKind} {P : TokenKind → Prop} {t : Token} {ts : List Token}

theorem matches_char (k : TokenKind) : (char k).matches' = ofKinds (· = k) := by
  ext w
  exact ⟨fun h => ⟨k, rfl, h⟩, by rintro ⟨_, rfl, h⟩; exact h⟩

theorem matches_dispositionWord : dispositionWord.matches' = ofKinds (isDisposition ·) := by
  ext w
  constructor
  · rintro ((h | h) | h) <;> exact ⟨_, rfl, h⟩
  · rintro ⟨k, hk, rfl⟩
    rw [isDisposition.eq_def] at hk
    split at hk
    · exact .inl (.inl rfl)
    · exact .inl (.inr rfl)
    · exact .inr rfl
    · cases hk

theorem begins_add : Begins (L + M) ts ↔ Begins L ts ∨ Begins M ts := by
  constructor
  · rintro ⟨w, hw | hw, hprefix⟩
    · exact .inl ⟨w, hw, hprefix⟩
    · exact .inr ⟨w, hw, hprefix⟩
  · rintro (⟨w, hw, hprefix⟩ | ⟨w, hw, hprefix⟩)
    · exact ⟨w, .inl hw, hprefix⟩
    · exact ⟨w, .inr hw, hprefix⟩

theorem begins_one : Begins 1 ts := ⟨[], rfl, List.nil_prefix⟩

theorem mem_ofKinds_mul {w : List TokenKind} :
    w ∈ ofKinds P * L ↔ ∃ k v, P k ∧ v ∈ L ∧ w = k :: v := by
  rw [Language.mem_mul]
  constructor
  · rintro ⟨_, ⟨k, hk, rfl⟩, v, hv, rfl⟩
    exact ⟨k, v, hk, hv, rfl⟩
  · rintro ⟨k, v, hk, hv, rfl⟩
    exact ⟨[k], ⟨k, hk, rfl⟩, v, hv, rfl⟩

theorem begins_mul_cons : Begins (ofKinds P * L) (t :: ts) ↔ P t.kind ∧ Begins L ts := by
  constructor
  · rintro ⟨w, hw, hprefix⟩
    obtain ⟨k, v, hk, hv, rfl⟩ := mem_ofKinds_mul.1 hw
    rw [List.map_cons, List.cons_prefix_cons] at hprefix
    obtain ⟨rfl, hrest⟩ := hprefix
    exact ⟨hk, v, hv, hrest⟩
  · rintro ⟨hk, v, hv, hprefix⟩
    refine ⟨t.kind :: v, mem_ofKinds_mul.2 ⟨_, v, hk, hv, rfl⟩, ?_⟩
    rw [List.map_cons, List.cons_prefix_cons]
    exact ⟨rfl, hprefix⟩

theorem not_begins_mul_nil : ¬Begins (ofKinds P * L) [] := by
  rintro ⟨w, hw, hprefix⟩
  obtain ⟨k, v, -, -, rfl⟩ := mem_ofKinds_mul.1 hw
  cases List.prefix_nil.1 hprefix

/-- A first token of some kinds that may be missing is dropped, where what comes
    behind it cannot begin with a token of these kinds. -/
theorem begins_optional_iff {f : List Token → List Token} [DecidablePred P] (hnil : f [] = [])
    (hcons : ∀ t ts, f (t :: ts) = if P t.kind then ts else t :: ts)
    (hL : ∀ t ts, P t.kind → ¬Begins L (t :: ts)) :
    Begins ((1 + ofKinds P) * L) ts ↔ Begins L (f ts) := by
  rw [add_mul, one_mul, begins_add]
  rcases ts with _ | ⟨t, ts⟩
  · rw [hnil, or_iff_left not_begins_mul_nil]
  rw [hcons, begins_mul_cons]
  split
  · next ht => rw [or_iff_right (hL t ts ht), and_iff_right ht]
  · next ht => exact or_iff_left fun h => ht h.1

end

/-! ## Names -/

theorem matches_namePattern :
    namePattern.matches' = ofKinds (· = .ident) * separatorPattern.matches' := by
  rw [← matches_char]
  rfl

/-- Behind a name there is a comma and another name, or a colon. -/
theorem matches_separatorPattern : separatorPattern.matches' =
    ofKinds (· = .comma) * namePattern.matches' + ofKinds (· = .colon) := by
  have hseparator : separatorPattern.matches' =
      (ofKinds (· = .comma) * ofKinds (· = .ident))∗ * ofKinds (· = .colon) := by
    simp only [← matches_char]
    rfl
  rw [matches_namePattern, hseparator, ← mul_assoc, ← mul_assoc, add_comm]
  conv => lhs; rw [← Language.one_add_self_mul_kstar_eq_kstar, add_mul, one_mul]

theorem begins_separatorPattern_cons {t : Token} {ts : List Token} :
    Begins separatorPattern.matches' (t :: ts) ↔
      t.kind = .comma ∧ Begins namePattern.matches' ts ∨ t.kind = .colon := by
  rw [matches_separatorPattern, begins_add, begins_mul_cons, ← mul_one (ofKinds (· = .colon)),
    begins_mul_cons, and_iff_left begins_one]

theorem not_begins_separatorPattern_nil : ¬Begins separatorPattern.matches' [] := by
  rw [matches_separatorPattern, begins_add, ← mul_one (ofKinds (· = .colon))]
  exact not_or_intro not_begins_mul_nil not_begins_mul_nil

theorem begins_namePattern_cons {t : Token} {ts : List Token} :
    Begins namePattern.matches' (t :: ts) ↔
      t.kind = .ident ∧ Begins separatorPattern.matches' ts := by
  rw [matches_namePattern, begins_mul_cons]

theorem startsWithNames_iff {ts : List Token} :
    startsWithNames ts ↔ Begins namePattern.matches' ts := by
  fun_induction startsWithNames ts with
  | case1 t u ts ih =>
    rw [begins_namePattern_cons, begins_separatorPattern_cons, ← ih]
    simp [or_comm]
  | case2 ts hts =>
    refine iff_of_false Bool.false_ne_true ?_
    rcases ts with _ | ⟨t, _ | ⟨u, ts⟩⟩
    · rw [matches_namePattern]
      exact not_begins_mul_nil
    · rw [begins_namePattern_cons]
      exact fun h => not_begins_separatorPattern_nil h.2
    · exact absurd rfl (hts t u ts)

/-! ## Heads -/

theorem matches_dispositionPattern : dispositionPattern.matches' =
    (1 + ofKinds (isDisposition ·)) * namePattern.matches' := by
  rw [← matches_dispositionWord]
  rfl

theorem matches_headPattern : headPattern.matches' =
    (1 + ofKinds (· = .keyword .privateKw)) * dispositionPattern.matches' := by
  rw [← matches_char]
  rfl

theorem begins_dispositionPattern_iff {ts : List Token} :
    Begins dispositionPattern.matches' ts ↔ Begins namePattern.matches' (dropDisposition ts) := by
  rw [matches_dispositionPattern]
  refine begins_optional_iff rfl (fun _ _ => rfl) fun t ts ht h => ?_
  rw [(begins_namePattern_cons.1 h).1] at ht
  cases ht

/-- Tokens begin with the head of a declaration as the pattern says. -/
theorem startsWithHead_iff {ts : List Token} :
    startsWithHead ts ↔ Begins headPattern.matches' ts := by
  rw [startsWithHead, startsWithNames_iff, ← begins_dispositionPattern_iff, matches_headPattern]
  refine (begins_optional_iff rfl (fun _ _ => rfl) fun t ts ht h => ?_).symm
  rw [begins_dispositionPattern_iff, dropDisposition, ht] at h
  have hident : t.kind = .ident := (begins_namePattern_cons.1 h).1
  rw [ht] at hident
  cases hident

/-! ## The layer -/

theorem deliver_of_head {last : Option TokenKind} {t : Token} {ts : List Token} {q : Quantifier}
    (ht : t.kind = .quantifier q) (hlast : last ≠ some .colon) (hhead : startsWithHead ts) :
    deliver last t ts = (t.withKind (.declares q), ts) := by
  rw [deliver, ht]
  exact if_pos ⟨hlast, hhead⟩

theorem deliver_of_no_head {last : Option TokenKind} {t : Token} {ts : List Token}
    (h : ∀ q, t.kind = .quantifier q → last ≠ some .colon → ¬startsWithHead ts) :
    deliver last t ts = (t, ts) := by
  rw [deliver]
  rcases hkind : t.kind.declaring? with _ | kind
  · rfl
  · obtain ⟨q, hq, -⟩ := TokenKind.exists_of_declaring? hkind
    exact if_neg fun hhead => h q hq hhead.1 hhead.2

/-- Of the token handed out last it matters whether it is a colon, and no more. -/
theorem rewriteFrom_congr {last last' : Option TokenKind}
    (h : last = some .colon ↔ last' = some .colon) (ts : List Token) :
    Layer.declarations.rewriteFrom last ts = Layer.declarations.rewriteFrom last' ts := by
  rcases ts with _ | ⟨t, ts⟩
  · rw [Layer.rewriteFrom_nil, Layer.rewriteFrom_nil]
  · have hdeliver : deliver last t ts = deliver last' t ts := by
      simp only [deliver, ne_eq, h]
    rw [rewriteFrom_cons, rewriteFrom_cons, hdeliver]

theorem Declares.kind_eq_iff {t u : Token} {k : TokenKind} (h : Declares t u) (hk : hasPlace k) :
    u.kind = k ↔ t.kind = k := by
  rcases h with rfl | ⟨q, hq, rfl⟩
  · rfl
  · rw [hq]
    exact iff_of_false (by rintro rfl; cases hk) (by rintro rfl; cases hk)

/-- The layer remembers the last token as if it had not changed it. -/
theorem rewriteFrom_cons_kind (last : Option TokenKind) (t : Token) (ts : List Token) :
    Layer.declarations.rewriteFrom last (t :: ts) =
      (deliver last t ts).1 :: Layer.declarations.rewriteFrom (some t.kind) ts := by
  have hcolon : some (deliver last t ts).1.kind = some .colon ↔ some t.kind = some .colon := by
    rw [Option.some_inj, Option.some_inj]
    exact (declares_deliver last t ts).kind_eq_iff rfl
  rw [rewriteFrom_cons, rewriteFrom_congr hcolon]

/-- What becomes of a token depends on the token in front of it and on those behind
    it. -/
theorem getElem?_rewriteFrom (last : Option TokenKind) {ts : List Token} {i : Nat} {t : Token}
    (h : ts[i]? = some t) :
    (Layer.declarations.rewriteFrom last ts)[i]? =
      some (deliver (if i = 0 then last else ts[i - 1]?.map Token.kind) t (ts.drop (i + 1))).1 := by
  induction ts generalizing last i with
  | nil => cases h
  | cons u ts ih =>
    rw [rewriteFrom_cons_kind]
    rcases i with _ | i
    · obtain rfl : u = t := Option.some.inj h
      rfl
    · rw [List.getElem?_cons_succ, ih (some u.kind) h]
      rcases i with _ | i <;> rfl

/-! ## A second layer -/

theorem Declares.isDisposition_eq {t u : Token} (h : Declares t u) :
    isDisposition u.kind = isDisposition t.kind := by
  rcases h with rfl | ⟨q, hq, rfl⟩
  · rfl
  · rw [hq]
    rfl

theorem startsWithNames_of_declares {ts us : List Token} (h : List.Forall₂ Declares ts us) :
    startsWithNames us = startsWithNames ts := by
  fun_induction startsWithNames ts generalizing us with
  | case1 t u ts ih =>
    rcases h with _ | ⟨ht, _ | ⟨hu, hts⟩⟩
    simp only [startsWithNames, ih hts, ht.kind_eq_iff (k := .ident) rfl,
      hu.kind_eq_iff (k := .colon) rfl, hu.kind_eq_iff (k := .comma) rfl]
  | case2 ts hts =>
    rcases h with _ | ⟨_, _ | _⟩
    · rfl
    · rfl
    · exact absurd rfl (hts _ _ _)

theorem startsWithHead_of_declares {ts us : List Token} (h : List.Forall₂ Declares ts us) :
    startsWithHead us = startsWithHead ts := by
  have hdrop {ts us : List Token} (h : List.Forall₂ Declares ts us) :
      startsWithNames (dropDisposition us) = startsWithNames (dropDisposition ts) := by
    apply startsWithNames_of_declares
    rcases h with _ | ⟨ht, hts⟩
    · exact .nil
    · rw [dropDisposition, dropDisposition, ht.isDisposition_eq]
      split
      · exact hts
      · exact .cons ht hts
  apply hdrop
  rcases h with _ | ⟨ht, hts⟩
  · exact .nil
  · rw [dropPrivate, dropPrivate]
    simp only [ht.kind_eq_iff (k := .keyword .privateKw) rfl]
    split
    · exact hts
    · exact .cons ht hts

/-- A token that has been delivered is delivered again as it is. -/
theorem deliver_deliver (last : Option TokenKind) (t : Token) {ts us : List Token}
    (h : List.Forall₂ Declares ts us) :
    deliver last (deliver last t ts).1 us = ((deliver last t ts).1, us) := by
  refine deliver_of_no_head fun q hq hlast hhead => ?_
  rw [startsWithHead_of_declares h] at hhead
  -- A quantifier that was left as it is had no head behind it.
  rcases declares_deliver last t ts with hd | ⟨q', -, hd⟩
  · have ht : t.kind = .quantifier q := hd ▸ hq
    rw [deliver_of_head ht hlast hhead] at hq
    cases hq
  · rw [hd] at hq
    cases hq

/-- Rewriting once more changes nothing. -/
theorem rewriteFrom_rewriteFrom (last : Option TokenKind) (ts : List Token) :
    Layer.declarations.rewriteFrom last (Layer.declarations.rewriteFrom last ts) =
      Layer.declarations.rewriteFrom last ts := by
  induction ts generalizing last with
  | nil => rw [Layer.rewriteFrom_nil, Layer.rewriteFrom_nil]
  | cons t ts ih =>
    have hagain := deliver_deliver last t (forall₂_declares (some (deliver last t ts).1.kind) ts)
    rw [rewriteFrom_cons, rewriteFrom_cons, hagain, ih]

/-! ## The pattern and the layer -/

/-- The token at the place `i` is the quantifier `q`, with no colon in front of it
    and a head behind it. -/
structure OpensAt (ts : List Token) (i : Nat) (q : Quantifier) : Prop where
  quantifier : ts[i]?.map Token.kind = some (.quantifier q)
  free : i = 0 ∨ ts[i - 1]?.map Token.kind ≠ some .colon
  head : Begins headPattern.matches' (ts.drop (i + 1))

/-- At each place the layer of declarations hands out a declaring quantifier if one
    opens a declaration there, and otherwise the token that it was given. -/
theorem getElem?_rewrite {ts : List Token} {i : Nat} {t : Token} (ht : ts[i]? = some t) :
    (∀ q, OpensAt ts i q →
      (Layer.declarations.rewrite ts)[i]? = some (t.withKind (.declares q))) ∧
    ((∀ q, ¬OpensAt ts i q) → (Layer.declarations.rewrite ts)[i]? = some t) := by
  have hlast : (if i = 0 then none else ts[i - 1]?.map Token.kind) ≠ some .colon ↔
      i = 0 ∨ ts[i - 1]?.map Token.kind ≠ some .colon := by
    by_cases hi : i = 0 <;> simp [hi]
  have hkind (q : Quantifier) :
      ts[i]?.map Token.kind = some (.quantifier q) ↔ t.kind = .quantifier q := by
    rw [ht]
    exact Option.some_inj
  rw [Layer.rewrite, getElem?_rewriteFrom none ht]
  constructor
  · intro q h
    rw [deliver_of_head ((hkind q).1 h.quantifier) (hlast.2 h.free) (startsWithHead_iff.2 h.head)]
  · intro h
    rw [deliver_of_no_head fun q hq hfree hhead =>
      h q ⟨(hkind q).2 hq, hlast.1 hfree, startsWithHead_iff.1 hhead⟩]

/-- The layer of declarations hands out the tokens that it was given, and each as a
    declaring quantifier if it opens a declaration by the pattern. A second layer of
    declarations on top changes nothing. -/
theorem run_matches_pattern {ts : List Token} (hne : ∀ t ∈ ts, t.kind ≠ .eof) :
    ∃ out, Layer.declarations.run ts = .ok out ∧ out.length = ts.length ∧
      (∀ i t, ts[i]? = some t →
        (∀ q, OpensAt ts i q → out[i]? = some (t.withKind (.declares q))) ∧
        ((∀ q, ¬OpensAt ts i q) → out[i]? = some t)) ∧
      (Stack.source (TokenList.source Error) [.declarations, .declarations]).collect
        (Stack.fresh (TokenList.ofList ts) [.declarations, .declarations]) = .ok out := by
  have hrun := Layer.declarations.run_eq ts
  have hagain := Stack.collect_ofList [.declarations, .declarations] ts
  rw [TokenList.untilEnd_eq_self hne] at hrun hagain
  refine ⟨_, hrun, (forall₂_declares none ts).length_eq.symm, fun i t => getElem?_rewrite, ?_⟩
  rw [hagain]
  exact congrArg Except.ok (rewriteFrom_rewriteFrom none ts)

/-- The tokens of `all some private part a, b: lone x: c`, where the first quantifier
    has no head behind it and the last one a colon in front. -/
theorem run_matches_pattern_of_quantifiers :
    let t (kind : TokenKind) (column : Nat) : Token := ⟨kind, none, .point none ⟨1, column⟩⟩
    let before := [t (.quantifier .all) 1]
    let behind := [t (.keyword .privateKw) 3, t (.keyword .part) 4, t .ident 5, t .comma 6,
      t .ident 7, t .colon 8, t (.quantifier .lone) 9, t .ident 10, t .colon 11, t .ident 12]
    let ts := before ++ t (.quantifier .some) 2 :: behind
    let out := before ++ t (.declares .some) 2 :: behind
    (∀ t ∈ ts, t.kind ≠ .eof) ∧ Layer.declarations.run ts = .ok out ∧ OpensAt ts 1 .some ∧
      (∀ q, ¬OpensAt ts 0 q) ∧ (∀ q, ¬OpensAt ts 8 q) ∧
      (Stack.source (TokenList.source Error) [.declarations, .declarations]).collect
        (Stack.fresh (TokenList.ofList ts) [.declarations, .declarations]) = .ok out := by
  intro t before behind ts out
  have hne : ∀ t ∈ ts, t.kind ≠ .eof := by decide +revert
  have hrun : Layer.declarations.run ts = .ok out := by decide +kernel
  obtain ⟨out', hout', -, hplaces, hagain⟩ := run_matches_pattern hne
  obtain rfl := Except.ok.inj (hrun.symm.trans hout')
  have hopens : OpensAt ts 1 .some := by
    by_contra h
    have hsame := (hplaces 1 (t (.quantifier .some) 2) rfl).2 fun q hq => by
      cases hq.quantifier
      exact h hq
    cases hsame
  refine ⟨hne, hrun, hopens, fun q h => ?_, fun q h => ?_, hagain⟩
  · cases (hplaces 0 (t (.quantifier .all) 1) rfl).1 q h
  · cases (hplaces 8 (t (.quantifier .lone) 9) rfl).1 q h

end Declarations

end AlloyLexical

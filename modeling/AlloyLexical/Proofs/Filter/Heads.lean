import AlloyLexical.Proofs.Filter.Barriers
import AlloyLexical.Proofs.Filter.Conservation

/-!
# Declarations that a grammar sees

A grammar that meets a declaring quantifier may rely on the head of a declaration
behind it, though three layers have been at work since the layer of declarations
found this head (`filterTokens_declares`):

* No layer above makes a declaring quantifier, and each is a barrier. So where one
  comes out, what is in front of it and what is behind it was rewritten apart
  (`exists_of_rewrite_upper_eq`).
* No token of a head begins a run of several, so the layers of operators and of
  signs leave a head as it is.
* The layer of commands leaves it as well, unless commands follow its colon. Then
  they are given the last name of the head, and that name comes behind them.
-/

namespace AlloyLexical

open Commands Declarations

/-! ## Tokens that begin no run -/

/-- A token that begins no run comes out as it is, be it behind commands that it is
    the name of. -/
theorem Arranged.exists_of_cons {t : Token} {ts out : List Token}
    (h : Arranged Merges (t :: ts) out) (ht : ¬t.kind.beginsRun) :
    (¬NamesCommand (t :: ts) ∧ ∃ out', out = t :: out' ∧ Arranged Merges ts out') ∨
      t.kind = .ident ∧ ∃ cs us out', cs ≠ [] ∧ (∀ c ∈ cs, IsClause c) ∧ ts = written cs ++ us ∧
        out = turned t cs ++ t :: out' := by
  generalize hus : t :: ts = us at h
  cases h with
  | nil => cases hus
  | @run r us out u o ho hname hout =>
    rcases r with _ | ⟨v, r⟩
    · obtain ⟨rfl, rfl⟩ := List.cons.inj hus
      obtain rfl := ho.eq_of_alone
      exact .inl ⟨hname, out, rfl, hout⟩
    · obtain ⟨rfl, -⟩ := List.cons.inj hus
      exact absurd (ho.isRun.eq_nil ht) (List.append_ne_nil_of_right_ne_nil r nofun)
  | @named name cs us out hname hcs hclauses _ _ =>
    obtain ⟨rfl, rfl⟩ := List.cons.inj hus
    exact .inr ⟨hname, cs, us, out, hcs, hclauses, rfl, rfl⟩

/-- Tokens that begin no run come out as they are, if there is no colon among them
    or right behind them. -/
theorem Arranged.exists_of_append {xs ts out : List Token} (h : Arranged Merges (xs ++ ts) out)
    (hxs : ∀ t ∈ xs, ¬t.kind.beginsRun ∧ t.kind ≠ .colon) (hts : ∀ t ∈ ts.head?, t.kind ≠ .colon) :
    ∃ out', out = xs ++ out' ∧ Arranged Merges ts out' := by
  induction xs generalizing out with
  | nil => exact ⟨out, rfl, h⟩
  | cons t xs ih =>
    rw [List.forall_mem_cons] at hxs
    rcases exists_of_cons h hxs.1.1 with
      ⟨-, out, rfl, hrest⟩ | ⟨-, cs, us, -, hcs, hclauses, hus, -⟩
    · obtain ⟨out', rfl, hout⟩ := ih hrest hxs.2
      exact ⟨out', rfl, hout⟩
    · -- A clause begins with a colon.
      obtain ⟨c, cs, rfl⟩ := List.exists_cons_of_ne_nil hcs
      have hcolon := (List.forall_mem_cons.1 hclauses).1.1
      rcases xs with _ | ⟨u, xs⟩
      · obtain rfl : ts = _ := hus
        exact absurd hcolon (hts c.1 rfl)
      · obtain ⟨rfl, -⟩ := List.cons.inj hus
        exact absurd hcolon (List.forall_mem_cons.1 hxs.2).1.2

/-! ## Splitting at a declaring quantifier -/

/-- Whether the token is a declaring quantifier. -/
def Token.declares (t : Token) : Bool :=
  match t.kind with
  | .declares _ => true
  | _ => false

theorem Token.declares_iff {t : Token} : t.declares ↔ ∃ q, t.kind = .declares q := by
  rw [declares]
  split
  · next q hq => simp [hq]
  · next h => simpa using h

theorem Token.isBarrier_of_declares {t : Token} (h : t.declares) : t.kind.isBarrier := by
  obtain ⟨q, hq⟩ := declares_iff.1 h
  rw [hq]
  rfl

theorem Merges.not_declares {r : List Token} {o : Token} (h : Merges r o)
    (hr : ∀ t ∈ r, ¬t.declares) : ¬o.declares := by
  rcases h with (_ | ⟨_, hu⟩ | ⟨_, hm⟩ | _ | _ | _) | (_ | _)
  · exact hr o List.mem_cons_self
  · obtain ⟨k, -, rfl⟩ := TokenKind.exists_of_negated? hu
    exact nofun
  · rw [Token.declares_iff]
    rcases Operators.kind_of_member? hm with h | h | ⟨f, h⟩ <;> rw [h] <;> exact nofun
  · exact nofun
  · exact nofun
  · exact nofun
  · exact hr o List.mem_cons_self
  · exact nofun

theorem not_declares_turned {name : Token} {cs : List (Token × Token)}
    (hcs : ∀ c ∈ cs, IsClause c) : ∀ t ∈ turned name cs, ¬t.declares := by
  intro t ht
  obtain ⟨c, hc, ht⟩ := List.mem_flatMap.1 ht
  obtain rfl | rfl : t = _ ∨ t = _ := by simpa using ht
  · rintro h
    obtain ⟨q, hq⟩ := Token.declares_iff.1 h
    have hcommand := (hcs c hc).2
    rw [show c.2.kind = .declares q from hq] at hcommand
    cases hcommand
  · exact nofun

/-- No declaring quantifier is made of other tokens. -/
theorem Arranged.not_declares {ts out : List Token} (h : Arranged Merges ts out)
    (hts : ∀ t ∈ ts, ¬t.declares) : ∀ o ∈ out, ¬o.declares := by
  induction h with
  | nil => exact List.forall_mem_nil _
  | run ho _ _ ih =>
    rw [List.append_cons, List.forall_mem_append] at hts
    exact List.forall_mem_cons.2 ⟨ho.not_declares hts.1, ih hts.2⟩
  | named _ _ hclauses _ _ ih =>
    rw [List.forall_mem_cons, List.forall_mem_append] at hts
    exact List.forall_mem_append.2
      ⟨not_declares_turned hclauses, List.forall_mem_cons.2 ⟨hts.1, ih hts.2.2⟩⟩

/-- The layers of the filter above that of declarations. -/
abbrev Filter.upperLayers : List Layer := [.signs, .operators, .commands]

theorem arranged_upper (ts : List Token) :
    Arranged Merges ts (Stack.rewrite Filter.upperLayers ts) :=
  arranged_merges (mergedBy_signs_operators _)

/-- Of two places in a list, one is the other or in front of it. -/
theorem eq_or_exists_of_append_eq {α : Type} {xs ys before behind : List α} {b d : α}
    (h : xs ++ b :: ys = before ++ d :: behind) (hd : d ∉ xs) :
    (xs = before ∧ b = d ∧ ys = behind) ∨
      ∃ between, before = xs ++ b :: between ∧ ys = between ++ d :: behind := by
  rcases List.append_eq_append_iff.1 h with ⟨between, rfl, hys⟩ | ⟨between, rfl, hbehind⟩
  · rcases List.cons_eq_append_iff.1 hys with ⟨rfl, hcons⟩ | ⟨between, rfl, rfl⟩
    · obtain ⟨rfl, rfl⟩ := List.cons.inj hcons
      exact .inl ⟨(List.append_nil _).symm, rfl, rfl⟩
    · exact .inr ⟨between, rfl, rfl⟩
  · rcases List.cons_eq_append_iff.1 hbehind with ⟨rfl, hcons⟩ | ⟨between, rfl, -⟩
    · obtain ⟨rfl, rfl⟩ := List.cons.inj hcons
      exact .inl ⟨List.append_nil _, rfl, rfl⟩
    · exact absurd (List.mem_append_right _ List.mem_cons_self) hd

/-- Where the upper layers hand out a declaring quantifier, they were given it, and
    what comes out on either side of it is made of the tokens on that side. -/
theorem exists_of_rewrite_upper_eq {ts before behind : List Token} {d : Token}
    (h : Stack.rewrite Filter.upperLayers ts = before ++ d :: behind) (hd : d.declares) :
    ∃ xs ys, ts = xs ++ d :: ys ∧ Stack.rewrite Filter.upperLayers xs = before ∧
      Stack.rewrite Filter.upperLayers ys = behind := by
  induction hn : ts.length using Nat.strong_induction_on generalizing ts before with
  | _ n ih =>
    rcases hfirst : ts.find? Token.declares with _ | b
    · -- Without one among the tokens, none comes out.
      have hout := (arranged_upper ts).not_declares (List.find?_eq_none.1 hfirst)
      rw [h] at hout
      exact absurd hd (hout d (List.mem_append_right _ List.mem_cons_self))
    · -- The first one comes out as well, at the place in question or in front of it.
      obtain ⟨hb, xs, ys, rfl, hxs⟩ := List.find?_eq_some_iff_append.1 hfirst
      have hbarrier := Token.isBarrier_of_declares hb
      have hout := (arranged_upper xs).not_declares (by simpa using hxs)
      rw [Stack.rewrite_append_barrier _ _ _ hbarrier] at h
      rcases eq_or_exists_of_append_eq h fun hmem => hout d hmem hd with
        ⟨rfl, rfl, rfl⟩ | ⟨between, rfl, hys⟩
      · exact ⟨xs, ys, rfl, rfl, rfl⟩
      · have hlength : ys.length < n := by
          rw [← hn, List.length_append, List.length_cons]
          omega
        obtain ⟨xs', ys', rfl, rfl, rfl⟩ := ih _ hlength hys rfl
        refine ⟨xs ++ b :: xs', ys', (List.append_assoc xs (b :: xs') _).symm, ?_, rfl⟩
        exact Stack.rewrite_append_barrier _ _ _ hbarrier

/-! ## Heads that come out -/

theorem Declarations.not_beginsRun_of_hasPlace {k : TokenKind} (h : hasPlace k) :
    ¬k.beginsRun := by
  rw [hasPlace.eq_def] at h
  split at h
  case h_5 =>
    rw [isDisposition.eq_def] at h
    split at h
    case h_4 => cases h
    all_goals decide
  all_goals decide

/-- Tokens that have a place in a head are left as they are. -/
theorem exists_of_declares_append {xs ts us : List Token}
    (h : List.Forall₂ Declares (xs ++ ts) us) (hxs : ∀ t ∈ xs, hasPlace t.kind) :
    ∃ us', us = xs ++ us' ∧ List.Forall₂ Declares ts us' := by
  induction xs generalizing us with
  | nil => exact ⟨us, rfl, h⟩
  | cons t xs ih =>
    rw [List.forall_mem_cons] at hxs
    obtain ⟨u, us, hu, hrest, rfl⟩ := List.forall₂_cons_left_iff.1 h
    obtain ⟨us', rfl, hus⟩ := ih hrest hxs.2
    have hquantifier (q : Quantifier) : t.kind ≠ .quantifier q := by
      intro hq
      have hplace := hxs.1
      rw [hq] at hplace
      cases hplace
    obtain rfl := hu.eq_of_ne hquantifier
    exact ⟨us', rfl, hus⟩

/-- What is handed out of a head and of the tokens `rest` behind it. -/
inductive ComesOut (opening : List Token) (name colon : Token) (rest : List Token) :
    List Token → Prop
  | plain {more : List Token} : ¬StartsClause (colon :: rest) →
    ComesOut opening name colon rest (opening ++ name :: colon :: more)
  | named {cs : List (Token × Token)} {us more : List Token} : cs ≠ [] →
    (∀ c ∈ cs, IsClause c) → colon :: rest = written cs ++ us →
    ComesOut opening name colon rest (opening ++ (turned name cs ++ name :: more))

theorem Declarations.IsHead.comesOut {opening rest us out : List Token} {name colon : Token}
    (h : IsHead opening name colon)
    (hus : List.Forall₂ Declares (opening ++ name :: colon :: rest) us)
    (hout : Arranged Merges us out) : ComesOut opening name colon rest out := by
  have hname : hasPlace name.kind := h.name ▸ rfl
  have hcolon : hasPlace colon.kind := h.colon ▸ rfl
  -- The layer of declarations has changed nothing before the colon.
  obtain ⟨vs, rfl, hvs⟩ := exists_of_declares_append hus fun t ht => (h.opening.hasPlace t ht).1
  have hends : List.Forall₂ Declares ([name, colon] ++ rest) vs := hvs
  obtain ⟨rest', rfl, hrest⟩ := exists_of_declares_append hends
    (List.forall_mem_cons.2 ⟨hname, List.forall_mem_singleton.2 hcolon⟩)
  -- Nor have the others before the last name.
  have hnext : ∀ t ∈ (name :: colon :: rest').head?, t.kind ≠ .colon := by
    rintro _ ⟨⟩
    exact h.name ▸ nofun
  obtain ⟨out', rfl, hout'⟩ := hout.exists_of_append
    (fun t ht => (h.opening.hasPlace t ht).imp_left not_beginsRun_of_hasPlace) hnext
  rcases Arranged.exists_of_cons hout' (not_beginsRun_of_hasPlace hname) with
    ⟨hnot, more, rfl, hmore⟩ | ⟨-, cs, us, more, hcs, hclauses, hwritten, rfl⟩
  · rcases hmore.exists_of_cons (not_beginsRun_of_hasPlace hcolon) with
      ⟨-, more, rfl, -⟩ | ⟨hident, -⟩
    · refine .plain fun hstarts => hnot ⟨h.name, ?_⟩
      exact startsClause_of_declares (.cons (.inl rfl) hrest) hstarts
    · rw [h.colon] at hident
      cases hident
  · -- The clauses were there before, as there is no quantifier in them.
    have hdeclares : List.Forall₂ Declares (colon :: rest) (written cs ++ us) :=
      hwritten ▸ .cons (.inl rfl) hrest
    obtain ⟨ws, vs, heq, hws, -⟩ := exists_of_forall₂_append hdeclares
    obtain rfl := eq_of_declares hws (written_ne_declares hclauses)
    exact .named hcs hclauses heq

/-! ## The filter -/

/-- Of tokens without declaring quantifiers, the filter makes one only of a
    quantifier with the head of a declaration behind it, and hands out this head
    behind it. Commands that follow the colon are given the last name and come in
    front of it. -/
theorem filterTokens_declares {ts : List Token} (hne : ∀ t ∈ ts, t.kind ≠ .eof)
    (hts : ∀ t ∈ ts, ∀ q, t.kind ≠ .declares q) :
    ∃ out, filterTokens ts = .ok out ∧
      ∀ before d behind q, out = before ++ d :: behind → d.kind = .declares q →
        ∃ earlier t opening name colon rest,
          ts = earlier ++ t :: (opening ++ name :: colon :: rest) ∧
          filterTokens earlier = .ok before ∧ t.kind = .quantifier q ∧
          d = t.withKind (.declares q) ∧ IsHead opening name colon ∧
          ComesOut opening name colon rest behind := by
  refine ⟨_, filterTokens_eq hne, fun before d behind q hout hd => ?_⟩
  have hupper : Stack.rewrite Filter.upperLayers (Layer.declarations.rewrite ts) =
      before ++ d :: behind := hout
  obtain ⟨xs, ys, hxs, hbefore, hbehind⟩ :=
    exists_of_rewrite_upper_eq hupper (Token.declares_iff.2 ⟨q, hd⟩)
  obtain ⟨earlier, t, later, rfl, hearlier, ht, hdt, hstarts, hys⟩ :=
    Declarations.exists_of_rewriteFrom_eq hxs (fun t ht => hts t ht q) hd
  obtain ⟨opening, name, colon, rest, rfl, hhead⟩ := exists_of_startsWithHead hstarts
  refine ⟨earlier, t, opening, name, colon, rest, rfl, ?_, ht, hdt, hhead, ?_⟩
  · rw [filterTokens_eq (List.forall_mem_append.1 hne).1, ← hbefore, ← hearlier]
    rfl
  · rw [← hbehind]
    exact hhead.comesOut (hys ▸ forall₂_declares _ _) (arranged_upper ys)

/-- The tokens of `all y: A | some private disj a, x: run: check`, in which the head
    of the second declaration has every part that it may have. -/
theorem filterTokens_declares_of_each_sort :
    let word (kind : TokenKind) (column : Nat) : Token := ⟨kind, none, .point none ⟨1, column⟩⟩
    let labelled (label : String) (kind : TokenKind) (column : Nat) : Token :=
      (word kind column).withPayload (some (.label label))
    let ts := [word (.quantifier .all) 1, labelled "y" .ident 5, word .colon 6,
      labelled "A" .ident 8, word (.symbol .bar) 10, word (.quantifier .some) 12,
      word (.keyword .privateKw) 17, word (.keyword .disj) 25, labelled "a" .ident 30,
      word .comma 31, labelled "x" .ident 33, word .colon 34, word (.keyword .run) 36,
      word .colon 39, word (.keyword .check) 41]
    let before := [word (.declares .all) 1, labelled "y" .ident 5, word .colon 6,
      labelled "A" .ident 8, word (.symbol .bar) 10]
    let behind := [word (.keyword .privateKw) 17, word (.keyword .disj) 25,
      labelled "a" .ident 30, word .comma 31, labelled "x" (.keyword .run) 36, word .dot 34,
      labelled "x" (.keyword .check) 41, word .dot 39, labelled "x" .ident 33]
    (∀ t ∈ ts, t.kind ≠ .eof) ∧ (∀ t ∈ ts, ∀ q, t.kind ≠ .declares q) ∧
      filterTokens ts = .ok (before ++ word (.declares .some) 12 :: behind) ∧
      ∃ earlier t opening name colon rest,
        ts = earlier ++ t :: (opening ++ name :: colon :: rest) ∧
        filterTokens earlier = .ok before ∧ t.kind = .quantifier .some ∧
        IsHead opening name colon ∧ ComesOut opening name colon rest behind := by
  intro word labelled ts before behind
  have hne : ∀ t ∈ ts, t.kind ≠ .eof := by decide +revert
  have hts : ∀ t ∈ ts, ¬t.declares := by decide +revert
  have hnone : ∀ t ∈ ts, ∀ q, t.kind ≠ .declares q := fun t ht q hq =>
    hts t ht (Token.declares_iff.2 ⟨q, hq⟩)
  have hfilter : filterTokens ts = .ok (before ++ word (.declares .some) 12 :: behind) := by
    decide +kernel
  obtain ⟨out, hout, hheads⟩ := filterTokens_declares hne hnone
  obtain rfl := Except.ok.inj (hfilter.symm.trans hout)
  obtain ⟨earlier, t, opening, name, colon, rest, hsplit, hearlier, ht, -, hhead, hbehind⟩ :=
    hheads before _ behind .some rfl rfl
  exact ⟨hne, hnone, hfilter, earlier, t, opening, name, colon, rest, hsplit, hearlier, ht, hhead,
    hbehind⟩

end AlloyLexical

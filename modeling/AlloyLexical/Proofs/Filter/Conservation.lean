import AlloyLexical.Proofs.Filter.Staging
import AlloyLexical.Proofs.Layer.Clauses
import AlloyLexical.Proofs.Layer.Heads
import AlloyLexical.Proofs.Layer.Runs
import Mathlib.Data.List.Forall2
import Mathlib.Data.List.Perm.Basic

/-!
# Conservation of tokens

The filter neither loses nor doubles a token. The tokens it is given are cut
into runs, of each of which one token is made, with the span of the run, and the
tokens made come in the order of the runs, but for named commands
(`Arranged`). So there are as many tokens as runs, and put in order they are
those of the runs (`Arranged.exists_runs`).

Named commands are turned around before tokens are merged. A run of several
tokens has no command in it, so its tokens, neighbours after the turn, were
neighbours before (`Commands.exists_of_rewriteFrom_eq`); and what is turned
around is merged with nothing (`MergedBy.exists_of_append`). This is what
`arranged_merges` combines. The layer of declarations below changes kinds only,
of tokens that no run of several has (`Arranged.isMadeOf`).
-/

namespace AlloyLexical

open Commands Declarations

/-- The tokens `out` are arranged as the tokens `ts` that they are made of. Of
    every run one token is made, as `P` says, in the order of the runs; but of a
    name and all of the clauses behind it the clauses come first, turned around,
    and then the name. -/
inductive Arranged (P : List Token → Token → Prop) : List Token → List Token → Prop
  | nil : Arranged P [] []
  | run {r ts out : List Token} {t o : Token} : P (r ++ [t]) o → ¬NamesCommand (t :: ts) →
    Arranged P ts out → Arranged P (r ++ t :: ts) (o :: out)
  | named {name : Token} {cs : List (Token × Token)} {ts out : List Token} : name.kind = .ident →
    cs ≠ [] → (∀ c ∈ cs, IsClause c) → ¬StartsClause ts → Arranged P ts out →
    Arranged P (name :: (written cs ++ ts)) (turned name cs ++ name :: out)

theorem forall₂_clauses {P : List Token → Token → Prop}
    (hP : ∀ t kind payload, P [t] ⟨kind, payload, t.span⟩) (name : Token)
    (cs : List (Token × Token)) : List.Forall₂ P ((written cs).map ([·]))
      (cs.flatMap fun c => [c.1.withKind .dot, c.2.withPayload name.payload]) := by
  induction cs with
  | nil => exact .nil
  | cons c cs ih => exact .cons (hP c.1 _ _) (.cons (hP c.2 _ _) ih)

/-- The runs that tokens are made of, one after the other. Where any single token
    may be made into one with its span, this is all that the input has, and what
    is made of the runs is all that comes out. -/
theorem Arranged.exists_runs {P : List Token → Token → Prop} {ts out : List Token}
    (h : Arranged P ts out) (hP : ∀ t kind payload, P [t] ⟨kind, payload, t.span⟩) :
    ∃ rs os, rs.flatten = ts ∧ List.Forall₂ P rs os ∧ os.Perm out := by
  induction h with
  | nil => exact ⟨[], [], rfl, .nil, .nil⟩
  | @run r ts out t o ho _ _ ih =>
    obtain ⟨rs, os, rfl, hrs, hos⟩ := ih
    refine ⟨(r ++ [t]) :: rs, o :: os, ?_, .cons ho hrs, hos.cons o⟩
    rw [List.flatten_cons, List.append_assoc]
    rfl
  | @named name cs ts out _ _ _ _ _ ih =>
    obtain ⟨rs, os, rfl, hrs, hos⟩ := ih
    -- Turned back, the clauses are made token by token.
    let made := cs.flatMap fun c => [c.1.withKind .dot, c.2.withPayload name.payload]
    refine ⟨[name] :: ((written cs).map ([·]) ++ rs), name :: (made ++ os), ?_, ?_, ?_⟩
    · rw [List.flatten_cons, List.flatten_append, ← List.flatMap_def, List.flatMap_singleton']
      rfl
    · exact .cons (hP name _ _) (List.rel_append (forall₂_clauses hP name cs) hrs)
    · have hmade : made.Perm (turned name cs) := List.Perm.flatMap_left cs fun _ _ => .swap _ _ []
      exact ((hmade.append hos).cons name).trans List.perm_middle.symm

/-! ## Merging behind commands -/

theorem not_beginsRun_turned {name : Token} {cs : List (Token × Token)}
    (hname : name.kind = .ident) (hcs : ∀ c ∈ cs, IsClause c) :
    ∀ t ∈ turned name cs ++ [name], ¬t.kind.beginsRun := by
  induction cs with
  | nil => exact List.forall_mem_singleton.2 (hname ▸ nofun)
  | cons c cs ih =>
    rw [List.forall_mem_cons] at hcs
    refine List.forall_mem_cons.2 ⟨TokenKind.not_beginsRun_of_isCommand hcs.1.2, ?_⟩
    exact List.forall_mem_cons.2 ⟨nofun, ih hcs.2⟩

/-- What the layers of commands, operators and signs make of tokens. -/
theorem arranged_merges {last : Option TokenKind} {ts out : List Token}
    (h : MergedBy Merges (Layer.commands.rewriteFrom last ts) out) : Arranged Merges ts out := by
  induction hn : ts.length using Nat.strong_induction_on generalizing last ts out with
  | _ n ih =>
    rcases ts with _ | ⟨t, ts⟩
    · -- Nothing is made of nothing, as no run is empty.
      rw [Layer.rewriteFrom_nil] at h
      rw [h.eq_nil_of_nil]
      exact .nil
    by_cases hname : NamesCommand (t :: ts)
    · -- A named command: the clauses and the name come out as they were turned.
      obtain ⟨cs, us, rfl, hcs, hus⟩ := exists_clauses ts
      rw [rewriteFrom_clauses hname.1 hcs hus, List.append_cons] at h
      obtain ⟨out, rfl, hrest⟩ := h.exists_of_append (not_beginsRun_turned hname.1 hcs)
      rw [← List.append_cons]
      refine .named hname.1 ?_ hcs hus (ih _ ?_ hrest rfl)
      · rintro rfl
        exact hus hname.2
      · rw [← hn, List.length_cons, List.length_append]
        omega
    · -- Any other token begins a run, be it of itself alone.
      rw [rewriteFrom_of_not_named last hname] at h
      obtain ⟨r, us, o, out, hts, rfl, hr, hus⟩ := h.exists_of_cons
      rcases List.eq_nil_or_concat' r with rfl | ⟨r, u, rfl⟩
      · obtain rfl : _ = us := hts
        exact .run (r := []) hr hname (ih _ (by rw [← hn]; exact Nat.lt_succ_self _) hus rfl)
      · have hjoins : ∀ v ∈ t :: (r ++ [u]), Joins v.kind := by
          rcases hr.isRun.alone_or with ⟨v, hv⟩ | hjoins
          · exact absurd (List.cons.inj hv).2 (List.append_ne_nil_of_right_ne_nil r nofun)
          · exact hjoins
        simp only [List.forall_mem_cons, List.forall_mem_append] at hjoins
        -- No command is in the run, so the run was there before the turn.
        rw [List.append_assoc] at hts
        obtain ⟨ts, rfl, hname, rfl⟩ := exists_of_rewriteFrom_eq hts
          (fun v hv => (hjoins.2.1 v hv).1) hjoins.2.2.1.1
        refine .run (r := t :: r) hr hname (ih _ ?_ hus rfl)
        rw [← hn, List.length_cons, List.length_append, List.length_cons]
        omega

/-! ## Declarations -/

theorem forall₂_declares (last : Option TokenKind) (ts : List Token) :
    List.Forall₂ Declares ts (Layer.declarations.rewriteFrom last ts) := by
  induction ts generalizing last with
  | nil =>
    rw [Layer.rewriteFrom_nil]
    exact .nil
  | cons t ts ih =>
    rw [Declarations.rewriteFrom_cons]
    exact .cons (declares_deliver last t ts) (ih _)

theorem Declarations.Declares.span_eq {t u : Token} (h : Declares t u) : u.span = t.span := by
  rcases h with rfl | ⟨q, _, rfl⟩ <;> rfl

theorem eq_of_declares {ts us : List Token} (h : List.Forall₂ Declares ts us)
    (hus : ∀ u ∈ us, ∀ q, u.kind ≠ .declares q) : ts = us := by
  induction h with
  | nil => rfl
  | cons htu _ ih =>
    rw [List.forall_mem_cons] at hus
    rw [ih hus.2]
    rcases htu with rfl | ⟨q, _, rfl⟩
    · rfl
    · exact absurd rfl (hus.1 q)

theorem written_ne_declares {cs : List (Token × Token)} (hcs : ∀ c ∈ cs, IsClause c) :
    ∀ t ∈ written cs, ∀ q, t.kind ≠ .declares q := by
  induction cs with
  | nil => exact List.forall_mem_nil _
  | cons c cs ih =>
    rw [List.forall_mem_cons] at hcs
    refine List.forall_mem_cons.2 ⟨hcs.1.1 ▸ nofun, List.forall_mem_cons.2 ⟨?_, ih hcs.2⟩⟩
    intro q hq
    have hc := hcs.1.2
    rw [hq] at hc
    cases hc

theorem Declarations.Declares.eq_of_ne {t u : Token} (h : Declares t u)
    (ht : ∀ q, t.kind ≠ .quantifier q) : u = t := by
  rcases h with rfl | ⟨q, hq, _⟩
  · rfl
  · exact absurd hq (ht q)

theorem startsClause_of_declares {ts us : List Token} (h : List.Forall₂ Declares ts us)
    (hts : StartsClause ts) : StartsClause us := by
  obtain ⟨t, u, ts, rfl, ht, hu⟩ := exists_of_startsClause hts
  rcases h with _ | ⟨htv, _ | ⟨huv, _⟩⟩
  obtain rfl := htv.eq_of_ne (ht ▸ nofun)
  obtain rfl := huv.eq_of_ne fun q hq => by
    rw [hq] at hu
    cases hu
  exact ⟨ht, hu⟩

theorem namesCommand_of_declares {t u : Token} {ts us : List Token} (h : Declares t u)
    (hts : List.Forall₂ Declares ts us) (ht : NamesCommand (t :: ts)) : NamesCommand (u :: us) := by
  obtain rfl := h.eq_of_ne (ht.1 ▸ nofun)
  exact ⟨ht.1, startsClause_of_declares hts ht.2⟩

theorem exists_of_forall₂_append {ts us vs : List Token}
    (h : List.Forall₂ Declares ts (us ++ vs)) : ∃ us' vs', ts = us' ++ vs' ∧
      List.Forall₂ Declares us' us ∧ List.Forall₂ Declares vs' vs :=
  ⟨_, _, (List.take_append_drop us.length ts).symm, List.forall₂_take_append ts us vs h,
    List.forall₂_drop_append ts us vs h⟩

theorem exists_of_mem_declares {ts us : List Token} (h : List.Forall₂ Declares ts us) {u : Token}
    (hu : u ∈ us) : ∃ t ∈ ts, Declares t u := by
  obtain ⟨before, behind, rfl⟩ := List.append_of_mem hu
  obtain ⟨ts₁, ts₂, rfl, -, hbehind⟩ := exists_of_forall₂_append h
  obtain ⟨t, ts₂, htu, -, rfl⟩ := List.forall₂_cons_right_iff.1 hbehind
  exact ⟨t, List.mem_append_right _ List.mem_cons_self, htu⟩

/-- The token `o` is made of the run `r`: the run is of one of the shapes there
    are, and the token spans it. -/
def IsMadeOf (r : List Token) (o : Token) : Prop := IsRun r ∧ IsSpanOf r o.span

theorem isMadeOf_of_declares {r r' : List Token} {o : Token} (h : List.Forall₂ Declares r r')
    (ho : Merges r' o) (hr : InOrder r) : IsMadeOf r o := by
  rcases ho.isRun.alone_or with ⟨u, rfl⟩ | hjoins
  · -- A single token may have become a declaring quantifier, in the same place.
    obtain rfl := ho.eq_of_alone
    obtain ⟨t, _, hto, ⟨⟩, rfl⟩ := List.forall₂_cons_right_iff.1 h
    exact ⟨.alone t, t, rfl, t, rfl, hto.span_eq⟩
  · -- In a run of several tokens there is no declaring quantifier.
    obtain rfl := eq_of_declares h fun u hu => (hjoins u hu).2
    exact ⟨ho.isRun, ho.isSpanOf hr⟩

/-- Below, the layer of declarations changes nothing about the arrangement. -/
theorem Arranged.isMadeOf {ts us out : List Token} (h : Arranged Merges us out)
    (hts : List.Forall₂ Declares ts us) (hin : InOrder ts) : Arranged IsMadeOf ts out := by
  induction h generalizing ts with
  | nil =>
    obtain rfl := List.forall₂_nil_right_iff.1 hts
    exact .nil
  | @run r us out u o ho hname _ ih =>
    obtain ⟨r', _, rfl, hr, htus⟩ := exists_of_forall₂_append hts
    obtain ⟨t, ts, htu, hrest, rfl⟩ := List.forall₂_cons_right_iff.1 htus
    have hrun : List.Forall₂ Declares (r' ++ [t]) (r ++ [u]) :=
      List.rel_append hr (.cons htu .nil)
    rw [List.append_cons] at hin
    exact .run (isMadeOf_of_declares hrun ho hin.left)
      (fun h => hname (namesCommand_of_declares htu hrest h)) (ih hrest hin.right)
  | @named name cs us out hname hcs hclauses hus _ ih =>
    rw [← List.cons_append] at hts
    obtain ⟨r, ts, rfl, hr, hrest⟩ := exists_of_forall₂_append hts
    obtain rfl := eq_of_declares hr (List.forall_mem_cons.2
      ⟨hname ▸ nofun, written_ne_declares hclauses⟩)
    exact .named hname hcs hclauses (fun h => hus (startsClause_of_declares hrest h))
      (ih hrest hin.right)

/-! ## The filter -/

/-- Of tokens in order the filter makes tokens that each span a run, and these
    runs are all of the tokens. -/
theorem filterTokens_conserves {ts : List Token} (hne : ∀ t ∈ ts, t.kind ≠ .eof)
    (hts : InOrder ts) : ∃ out, filterTokens ts = .ok out ∧ Arranged IsMadeOf ts out ∧
      ∃ rs os, rs.flatten = ts ∧ List.Forall₂ IsMadeOf rs os ∧ os.Perm out := by
  have hout : Arranged IsMadeOf ts (Stack.rewrite Filter.layers ts) :=
    (arranged_merges (mergedBy_signs_operators _)).isMadeOf (forall₂_declares none ts) hts
  exact ⟨_, filterTokens_eq hne, hout,
    hout.exists_runs fun t _ _ => ⟨.alone t, t, rfl, t, rfl, rfl⟩⟩

/-- The tokens of `! in a : run`. -/
theorem filterTokens_conserves_negation_and_name :
    let ts : List Token := [⟨.not, none, ⟨none, ⟨1, 1⟩, ⟨1, 1⟩⟩⟩,
      ⟨.relation .subset, none, ⟨none, ⟨1, 3⟩, ⟨1, 4⟩⟩⟩,
      ⟨.ident, some (.label "a"), ⟨none, ⟨1, 6⟩, ⟨1, 6⟩⟩⟩,
      ⟨.colon, none, ⟨none, ⟨1, 8⟩, ⟨1, 8⟩⟩⟩,
      ⟨.keyword .run, none, ⟨none, ⟨1, 10⟩, ⟨1, 12⟩⟩⟩]
    (∀ t ∈ ts, t.kind ≠ .eof) ∧ InOrder ts ∧
      ∃ out, filterTokens ts = .ok out ∧ Arranged IsMadeOf ts out ∧
        ∃ rs os, rs.flatten = ts ∧ List.Forall₂ IsMadeOf rs os ∧ os.Perm out := by
  intro ts
  have hne : ∀ t ∈ ts, t.kind ≠ .eof := by decide +revert
  have hts : InOrder ts := ⟨⟨none, by decide +revert⟩, by decide +revert, by decide +revert⟩
  exact ⟨hne, hts, filterTokens_conserves hne hts⟩

end AlloyLexical

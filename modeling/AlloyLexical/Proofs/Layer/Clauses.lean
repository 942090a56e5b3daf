import AlloyLexical.Proofs.Layer.Rewriting

/-!
# Named commands

A name may stand in front of several commands, as in `a: run: check`. The layer
of commands turns them around one by one, each time with the same name in hand,
until there is no command left behind it: what comes out is all of the commands,
each with a dot, and then the name (`Commands.rewriteFrom_clauses`). It comes to
a name in no other way, and all other tokens stay where they are
(`Commands.exists_of_rewriteFrom_eq`).
-/

namespace AlloyLexical

namespace Commands

/-- A *clause* is a colon and a command. -/
def IsClause (c : Token × Token) : Prop := c.1.kind = .colon ∧ isCommand c.2.kind

/-- The tokens of some clauses, as they are written behind a name. -/
def written (cs : List (Token × Token)) : List Token := cs.flatMap fun c => [c.1, c.2]

/-- The tokens of some clauses, as they are turned around in front of the
    name. -/
def turned (name : Token) (cs : List (Token × Token)) : List Token :=
  cs.flatMap fun c => [c.2.withPayload name.payload, c.1.withKind .dot]

theorem written_append (cs cs' : List (Token × Token)) :
    written (cs ++ cs') = written cs ++ written cs' := List.flatMap_append

/-- There is no name in a clause. -/
theorem ne_ident_of_mem_written {cs : List (Token × Token)} (hcs : ∀ c ∈ cs, IsClause c)
    {t : Token} (ht : t ∈ written cs) : t.kind ≠ .ident := by
  obtain ⟨c, hc, ht⟩ := List.mem_flatMap.1 ht
  obtain ⟨hcolon, hcommand⟩ := hcs c hc
  obtain rfl | rfl : t = c.1 ∨ t = c.2 := by simpa using ht
  · rw [hcolon]
    exact nofun
  · intro hident
    rw [hident] at hcommand
    cases hcommand

/-- A place among clauses that are turned around, their name and what comes behind
    it. -/
theorem exists_of_turned_eq {name o : Token} {cs : List (Token × Token)}
    {out before behind : List Token} (h : turned name cs ++ name :: out = before ++ o :: behind) :
    (∃ cs₁ c cs₂, cs = cs₁ ++ c :: cs₂ ∧
      ((o = c.2.withPayload name.payload ∧
          behind = c.1.withKind .dot :: (turned name cs₂ ++ name :: out)) ∨
        (o = c.1.withKind .dot ∧ behind = turned name cs₂ ++ name :: out))) ∨
    o = name ∨ ∃ between, out = between ++ o :: behind := by
  induction cs generalizing before with
  | nil =>
    rcases before with _ | ⟨b, before⟩
    · exact .inr (.inl (List.cons.inj h).1.symm)
    · exact .inr (.inr ⟨before, (List.cons.inj h).2⟩)
  | cons c cs ih =>
    rcases before with _ | ⟨b, _ | ⟨b', before⟩⟩
    · obtain ⟨rfl, rfl⟩ := List.cons.inj h
      exact .inl ⟨[], c, cs, rfl, .inl ⟨rfl, rfl⟩⟩
    · obtain ⟨rfl, rfl⟩ := List.cons.inj (List.cons.inj h).2
      exact .inl ⟨[], c, cs, rfl, .inr ⟨rfl, rfl⟩⟩
    · rcases ih (List.cons.inj (List.cons.inj h).2).2 with ⟨cs₁, c', cs₂, rfl, hplace⟩ | hplace
      · exact .inl ⟨c :: cs₁, c', cs₂, rfl, hplace⟩
      · exact .inr hplace

/-- The clauses that some tokens begin with can be told from the rest. -/
theorem exists_clauses (ts : List Token) : ∃ cs us, ts = written cs ++ us ∧
    (∀ c ∈ cs, IsClause c) ∧ ¬StartsClause us := by
  by_cases h : StartsClause ts
  · obtain ⟨u, v, vs, rfl, hu, hv⟩ := exists_of_startsClause h
    obtain ⟨cs, us, rfl, hcs, hus⟩ := exists_clauses vs
    exact ⟨(u, v) :: cs, us, rfl, List.forall_mem_cons.2 ⟨⟨hu, hv⟩, hcs⟩, hus⟩
  · exact ⟨[], ts, rfl, List.forall_mem_nil _, h⟩
termination_by ts.length

theorem rewriteFrom_of_not_named {t : Token} {ts : List Token} (last : Option TokenKind)
    (h : ¬NamesCommand (t :: ts)) : Layer.commands.rewriteFrom last (t :: ts) =
      t :: Layer.commands.rewriteFrom (some t.kind) ts := by
  have hd : Layer.commands.deliver last t ts = (t, ts) := deliver_of_not_named h
  rw [Layer.rewriteFrom_cons, hd]

theorem rewriteFrom_of_named {t u v : Token} (ts : List Token) (last : Option TokenKind)
    (h : NamesCommand (t :: u :: v :: ts)) :
    Layer.commands.rewriteFrom last (t :: u :: v :: ts) =
      v.withPayload t.payload :: u.withKind .dot ::
        Layer.commands.rewriteFrom (some .dot) (t :: ts) := by
  have hd : Layer.commands.deliver last t (u :: v :: ts) =
      (v.withPayload t.payload, u.withKind .dot :: t :: ts) := deliver_of_named ts h
  have hdot : ¬NamesCommand (u.withKind .dot :: t :: ts) := fun hdot => nomatch hdot.1
  rw [Layer.rewriteFrom_cons, hd, rewriteFrom_of_not_named _ hdot]
  rfl

/-- All commands behind a name are turned around. -/
theorem rewriteFrom_clauses {name : Token} {cs : List (Token × Token)} {ts : List Token}
    (hname : name.kind = .ident) (hcs : ∀ c ∈ cs, IsClause c) (hts : ¬StartsClause ts)
    (last : Option TokenKind) :
    Layer.commands.rewriteFrom last (name :: (written cs ++ ts)) =
      turned name cs ++ name :: Layer.commands.rewriteFrom (some .ident) ts := by
  induction cs generalizing last with
  | nil =>
    refine (rewriteFrom_of_not_named last fun h => hts h.2).trans ?_
    rw [hname]
    rfl
  | cons c cs ih =>
    rw [List.forall_mem_cons] at hcs
    refine (rewriteFrom_of_named (written cs ++ ts) last ⟨hname, hcs.1⟩).trans ?_
    rw [ih hcs.2]
    rfl

theorem exists_of_rewriteFrom_eq_cons {last : Option TokenKind} {ts us : List Token} {t : Token}
    (h : Layer.commands.rewriteFrom last ts = t :: us) (ht : ¬isCommand t.kind) :
    ∃ ts', ts = t :: ts' ∧ ¬NamesCommand (t :: ts') ∧
      us = Layer.commands.rewriteFrom (some t.kind) ts' := by
  rcases ts with _ | ⟨t', ts⟩
  · rw [Layer.rewriteFrom_nil] at h
    cases h
  by_cases hname : NamesCommand (t' :: ts)
  · -- A name with commands behind it hands out a command.
    obtain ⟨u, v, vs, rfl, -, hv⟩ := exists_of_startsClause hname.2
    rw [rewriteFrom_of_named vs last hname] at h
    rw [← (List.cons.inj h).1] at ht
    exact absurd hv ht
  · rw [rewriteFrom_of_not_named last hname] at h
    obtain ⟨rfl, rfl⟩ := List.cons.inj h
    exact ⟨ts, rfl, hname, rfl⟩

/-- Neighbours that come out, none of them a command, were neighbours before. -/
theorem exists_of_rewriteFrom_eq {last : Option TokenKind} {ts r us : List Token} {t : Token}
    (h : Layer.commands.rewriteFrom last ts = r ++ t :: us)
    (hr : ∀ u ∈ r, ¬isCommand u.kind) (ht : ¬isCommand t.kind) :
    ∃ ts', ts = r ++ t :: ts' ∧ ¬NamesCommand (t :: ts') ∧
      us = Layer.commands.rewriteFrom (some t.kind) ts' := by
  induction r generalizing last ts with
  | nil => exact exists_of_rewriteFrom_eq_cons h ht
  | cons u r ih =>
    rw [List.forall_mem_cons] at hr
    obtain ⟨ts, rfl, -, hus⟩ := exists_of_rewriteFrom_eq_cons h hr.1
    obtain ⟨ts, rfl, hts⟩ := ih hus.symm hr.2
    exact ⟨ts, rfl, hts⟩

end Commands

end AlloyLexical

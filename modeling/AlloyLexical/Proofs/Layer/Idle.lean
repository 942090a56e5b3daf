import AlloyLexical.Proofs.Layer.Blocks
import AlloyLexical.Proofs.Layer.Greedy
import AlloyLexical.Proofs.Layer.Neighbours
import AlloyLexical.Proofs.Layer.Pattern

/-!
# Layers with nothing to do

A layer leaves tokens as they are exactly where they do not ask for anything else:

* no declaration opens (`Declarations.rewrite_eq_self_iff`);
* no name is that of a block (`Commands.rewrite_eq_self_iff`);
* no tokens side by side make an operator (`Operators.rewrite_eq_self_iff`);
* no minus sign is a sign (`Signs.rewrite_eq_self_iff`).

That something is rewritten shows, for the layers of declarations and of commands, in
the kind that stands at its place afterwards, and for the layers of operators and of
signs in the number of tokens.
-/

namespace AlloyLexical

/-! ## Declarations -/

namespace Declarations

/-- The layer of declarations leaves tokens as they are where none of them opens a
    declaration. -/
theorem rewrite_eq_self_iff {ts : List Token} :
    Layer.declarations.rewrite ts = ts ↔ ∀ i q, ¬OpensAt ts i q := by
  constructor
  · intro h i q hopens
    obtain ⟨t, ht, hkind⟩ := Option.map_eq_some_iff.1 hopens.quantifier
    have hdeclares := (getElem?_rewrite ht).1 q hopens
    rw [h, ht] at hdeclares
    cases hkind.symm.trans (congrArg Token.kind (Option.some.inj hdeclares))
  · intro h
    have hlength : ts.length = (Layer.declarations.rewrite ts).length :=
      (forall₂_declares none ts).length_eq
    refine List.ext_getElem? fun i => ?_
    rcases ht : ts[i]? with _ | t
    · rw [List.getElem?_eq_none_iff] at ht ⊢
      exact hlength ▸ ht
    · exact (getElem?_rewrite ht).2 (h i)

end Declarations

/-! ## Commands -/

namespace Commands

variable {ts : List Token} {i : Nat} {name : Token} {cs : List (Token × Token)}

theorem BlockAt.getElem?_eq (h : BlockAt ts i name cs) : ts[i]? = some name := by
  obtain ⟨behind, hdrop, -⟩ := h.found
  rw [← List.head?_drop, hdrop, List.head?_cons]

/-- In place of the name of a block a command is handed out. -/
theorem BlockAt.exists_command (h : BlockAt ts i name cs) (last : Option TokenKind) :
    ∃ command, (Layer.commands.rewriteFrom last ts)[i]? = some command ∧
      isCommand command.kind := by
  obtain ⟨behind, hbehind⟩ := h.turned_prefix last
  obtain ⟨c, cs, rfl⟩ := List.exists_cons_of_ne_nil h.ne_nil
  refine ⟨c.2.withPayload name.payload, ?_, (h.clauses c List.mem_cons_self).2⟩
  rw [← List.head?_drop, ← hbehind]
  rfl

/-- The layer of commands leaves tokens as they are where there are no blocks among
    them. -/
theorem rewrite_eq_self_iff :
    Layer.commands.rewrite ts = ts ↔ ∀ i name cs, ¬BlockAt ts i name cs := by
  constructor
  · intro h i name cs hblock
    obtain ⟨command, hcommand, hkind⟩ := hblock.exists_command none
    rw [show Layer.commands.rewriteFrom none ts = ts from h, hblock.getElem?_eq] at hcommand
    rw [← Option.some.inj hcommand, hblock.isName] at hkind
    cases hkind
  · intro h
    exact List.ext_getElem? fun i =>
      getElem?_rewriteFrom_of_apart (fun j name cs hblock => absurd hblock (h j name cs)) none

/-- There is a block wherever a name, a colon and a command stand side by side. -/
theorem exists_blockAt_iff : (∃ i name cs, BlockAt ts i name cs) ↔
    ∃ x y z, [x, y, z] <:+: ts ∧ x.kind = .ident ∧ y.kind = .colon ∧ isCommand z.kind := by
  constructor
  · rintro ⟨i, name, cs, h⟩
    obtain ⟨behind, hdrop, -⟩ := h.found
    obtain ⟨c, cs, rfl⟩ := List.exists_cons_of_ne_nil h.ne_nil
    obtain ⟨hcolon, hcommand⟩ := h.clauses c List.mem_cons_self
    have hpre : [name, c.1, c.2] <+: ts.drop i := by
      rw [hdrop]
      exact List.prefix_append [name, c.1, c.2] (written cs ++ behind)
    exact ⟨_, _, _, hpre.isInfix.trans (List.drop_suffix i ts).isInfix, h.isName, hcolon,
      hcommand⟩
  · rintro ⟨x, y, z, ⟨before, behind, rfl⟩, hx, hy, hz⟩
    obtain ⟨cs, us, rfl, hcs, hus⟩ := exists_clauses behind
    refine ⟨before.length, x, (y, z) :: cs, hx, List.cons_ne_nil _ _,
      List.forall_mem_cons.2 ⟨⟨hy, hz⟩, hcs⟩, us, ?_, hus⟩
    rw [List.append_assoc, List.drop_left]
    rfl

end Commands

/-! ## Operators -/

namespace MergedGreedily

variable {P : List Token → Token → Prop} {ts out : List Token}

theorem mergedBy (h : MergedGreedily P ts out) : MergedBy P ts out := by
  induction h with
  | nil => exact .nil
  | run hr _ _ ih => exact .run hr ih

/-- Where as many tokens are made as there were, no tokens side by side could have been
    merged. -/
theorem length_le_one_of_infix (hne : ∀ r o, P r o → r ≠ []) (h : MergedGreedily P ts out)
    (hlength : out.length = ts.length) {r : List Token} {o : Token} (hr : r <:+: ts)
    (hP : P r o) : r.length ≤ 1 := by
  induction h with
  | nil =>
    rw [List.infix_nil.1 hr]
    exact Nat.zero_le _
  | run hrun hlongest hts ih =>
    obtain ⟨⟨t, rfl⟩, hrest⟩ := hts.mergedBy.run_of_length_eq hne hrun hlength
    rcases List.infix_cons_iff.1 hr with hpre | hinfix
    · exact hlongest r o hpre hP
    · exact ih hrest hinfix

/-- Tokens of which no two side by side can be merged are merged greedily one by
    one. -/
theorem alone (halone : ∀ t, P [t] t) (h : ∀ r o, r <:+: ts → P r o → r.length ≤ 1) :
    MergedGreedily P ts ts := by
  induction ts with
  | nil => exact .nil
  | cons t ts ih =>
    refine .run (r := [t]) (halone t) (fun r o hpre => h r o hpre.isInfix) (ih ?_)
    exact fun r o hinfix => h r o (List.infix_cons hinfix)

end MergedGreedily

namespace Operators

/-- The layer of operators leaves tokens as they are where no rule has a run of several
    of them. -/
theorem rewrite_eq_self_iff {ts : List Token} :
    Layer.operators.rewrite ts = ts ↔ ∀ r o, r <:+: ts → Rule r o → r.length ≤ 1 := by
  have hmerged := mergedGreedily_rewriteFrom none ts
  constructor
  · intro h r o hr hrule
    exact hmerged.length_le_one_of_infix (fun _ _ => Rule.ne_nil) (congrArg List.length h) hr hrule
  · intro h
    exact hmerged.unique (fun _ _ => Rule.ne_nil) (fun _ _ _ => Rule.unique) (.alone .alone h)

end Operators

/-! ## Signs -/

namespace Signs

theorem rewriteFrom_of_not_signAt {last : Option TokenKind} {ts : List Token}
    (h : ∀ i t u n, ¬SignAt last ts i t u n) : Layer.signs.rewriteFrom last ts = ts := by
  induction ts generalizing last with
  | nil => rw [Layer.rewriteFrom_nil]
  | cons t ts ih =>
    have hd : Layer.signs.deliver last t ts = (t, ts) := deliver_of_not_signAt (h 0 t)
    rw [Layer.rewriteFrom_cons, hd, ih fun i t u n hi => h (i + 1) t u n (SignAt.cons_iff.2 hi)]

/-- The layer of signs leaves tokens as they are where none of them is a sign. -/
theorem rewrite_eq_self_iff {ts : List Token} :
    Layer.signs.rewrite ts = ts ↔ ∀ i t u n, ¬SignAt none ts i t u n := by
  refine ⟨fun h i t u n hsign => ?_, rewriteFrom_of_not_signAt⟩
  obtain ⟨made, hmade, houtcome⟩ := exists_outcome none ts
  -- The number behind the sign comes to nothing, and so there are fewer tokens.
  have hnumber : i + 1 ∈ List.range ts.length :=
    List.mem_range.2 (List.getElem?_eq_some_iff.1 hsign.number).1
  have hlength :
      ((List.range ts.length).filterMap made).length = (List.range ts.length).length := by
    rw [← hmade, List.length_range]
    exact congrArg List.length h
  have hsome := List.filterMap_length_eq_length.1 hlength _ hnumber
  rw [(houtcome.signed i t u n hsign).2] at hsome
  cases hsome

end Signs

end AlloyLexical

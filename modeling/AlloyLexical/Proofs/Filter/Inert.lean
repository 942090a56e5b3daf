import AlloyLexical.Proofs.Layer.Idle

/-!
# Tokens that are left alone

What the filter looks for in tokens can be listed (`IsRewritable`), and it leaves tokens
alone exactly if there is nothing of that among them (`filterTokens_eq_self_iff`).

Every layer finds its part of the list in the tokens that it is given itself. That the
list is read off the tokens given to the filter is thus due to two facts:

* no layer makes up for what a layer below it did, and so the filter leaves tokens alone
  only if each of its layers does (`Filter.rewrite_eq_self_iff`);
* layers that leave tokens alone hand on the tokens that were given to the filter.

A merged token is never cut into several again, and a declaring quantifier stays one. So
whatever is done to tokens leaves either fewer of them, or a command where a name was, or
a declaring quantifier.
-/

namespace AlloyLexical

open Declarations (Declares OpensAt)

/-! ## Layers on top of each other -/

namespace Filter

variable {ts us : List Token}

/-- Turning commands around never brings back a quantifier that has become a declaring
    one. -/
theorem eq_of_commands_rewrite_eq (h : List.Forall₂ Declares ts us)
    (hrewrite : Layer.commands.rewrite us = ts) : us = ts := by
  have hidle : Layer.commands.rewrite us = us := by
    refine Commands.rewrite_eq_self_iff.2 fun i name cs hblock => ?_
    obtain ⟨command, hcommand, hkind⟩ := hblock.exists_command none
    rw [show Layer.commands.rewriteFrom none us = ts from hrewrite] at hcommand
    obtain ⟨hi, hname⟩ := List.getElem?_eq_some_iff.1 hblock.getElem?_eq
    obtain ⟨hi', hcommand⟩ := List.getElem?_eq_some_iff.1 hcommand
    have hdeclares : Declares command name := by
      rw [← hcommand, ← hname]
      exact (List.forall₂_iff_get.1 h).2 i hi' hi
    -- Neither a command nor a declaring quantifier is a name.
    rcases hdeclares with rfl | ⟨q, -, rfl⟩
    · rw [hblock.isName] at hkind
      cases hkind
    · cases hblock.isName
  exact hidle.symm.trans hrewrite

/-- Merging signs never brings back tokens that were merged into an operator. -/
theorem operators_rewrite_eq (h : Layer.signs.rewrite (Layer.operators.rewrite ts) = ts) :
    Layer.operators.rewrite ts = ts := by
  have hmerged : MergedBy Operators.Merges ts (Layer.operators.rewrite ts) :=
    Layer.mergedBy_rewriteFrom (l := .operators) (fun _ => Operators.takes_deliver) none ts
  have hle := hmerged.length_le fun _ _ => Operators.Merges.ne_nil
  have hge := Layer.signs.length_rewriteFrom_le none (Layer.operators.rewrite ts)
  rw [show Layer.signs.rewriteFrom none (Layer.operators.rewrite ts) = ts from h] at hge
  exact hmerged.eq_of_length_eq (fun _ _ => Operators.Merges.ne_nil)
    (fun _ _ hr => Merges.eq_of_alone (.inl hr)) (Nat.le_antisymm hle hge)

/-- The layers of the filter leave tokens as they are only if each of them does. -/
theorem rewrite_eq_self_iff :
    Stack.rewrite layers ts = ts ↔ ∀ l : Layer, l.rewrite ts = ts := by
  show Layer.signs.rewrite (Layer.operators.rewrite
    (Layer.commands.rewrite (Layer.declarations.rewrite ts))) = ts ↔ _
  constructor
  · intro h
    have hus : List.Forall₂ Declares ts (Layer.declarations.rewrite ts) := forall₂_declares none ts
    have hmerged := mergedBy_signs_operators
      (Layer.commands.rewrite (Layer.declarations.rewrite ts))
    rw [h] at hmerged
    -- Before tokens are merged there are as many as there are in the end.
    have hcommands : Layer.commands.rewrite (Layer.declarations.rewrite ts) = ts :=
      (hmerged.eq_of_length_eq (fun _ _ => Merges.ne_nil) (fun _ _ => Merges.eq_of_alone)
        (hus.length_eq.trans (Commands.length_rewriteFrom none _).symm)).symm
    have hdeclarations := eq_of_commands_rewrite_eq hus hcommands
    have hsigns : Layer.signs.rewrite (Layer.operators.rewrite ts) = ts := by
      rwa [hcommands] at h
    have hoperators := operators_rewrite_eq hsigns
    intro l
    cases l with
    | declarations => exact hdeclarations
    | commands => rwa [hdeclarations] at hcommands
    | operators => exact hoperators
    | signs => rwa [hoperators] at hsigns
  · intro h
    rw [h, h, h, h]

end Filter

/-! ## What the filter looks for -/

/-- Among the tokens there is something that the filter rewrites. -/
inductive IsRewritable (ts : List Token) : Prop
  | declaration {i : Nat} {q : Quantifier} : OpensAt ts i q → IsRewritable ts
  | command {x y z : Token} : [x, y, z] <:+: ts → x.kind = .ident → y.kind = .colon →
    Commands.isCommand z.kind → IsRewritable ts
  | negation {x y : Token} {r : Relation} : [x, y] <:+: ts → x.kind = .not →
    y.kind = .relation r → IsRewritable ts
  | totalOrder {x y z : Token} : [x, y, z] <:+: ts → x.kind = .keyword .pred →
    y.kind = .slash → z.isIdent "totalOrder" → IsRewritable ts
  | function {x y z : Token} (f : IntFunction) : [x, y, z] <:+: ts →
    x.kind = .keyword .funKw → y.kind = .slash → z.isIdent f.label → IsRewritable ts
  | string {x y z : Token} : [x, y, z] <:+: ts → x.kind = .keyword .funKw → y.kind = .slash →
    z.isIdent "String" → IsRewritable ts
  | arrowAfter {x y : Token} : [x, y] <:+: ts → x.kind.isMultiplicity → y.kind = .bareArrow →
    IsRewritable ts
  | arrowBefore {x y : Token} : [x, y] <:+: ts → x.kind = .bareArrow → y.kind.isMultiplicity →
    IsRewritable ts
  | sign {i : Nat} {x y : Token} {n : Int64} : Signs.SignAt none ts i x y n → IsRewritable ts

/-- Several tokens side by side that make an operator are rewritable. -/
theorem Operators.Rule.isRewritable {ts r : List Token} {o : Token} (h : Rule r o)
    (hr : r <:+: ts) (hlength : 1 < r.length) : IsRewritable ts := by
  cases h with
  | negation hx hy =>
    obtain ⟨relation, hy, -⟩ := TokenKind.exists_of_negated? hy
    exact .negation hr hx hy
  | totalOrder hx hy hz => exact .totalOrder hr hx hy hz
  | function f hx hy hz => exact .function f hr hx hy hz
  | string hx hy hz => exact .string hr hx hy hz
  | arrowBetween hx hy hz =>
    exact .arrowAfter ((List.prefix_append [_, _] [_]).isInfix.trans hr) hx hy
  | arrowAfter hx hy => exact .arrowAfter hr hx hy
  | arrowBefore hx hy => exact .arrowBefore hr hx hy
  | alone x => exact absurd hlength (Nat.lt_irrefl 1)

/-- Tokens are rewritable where some layer does not leave them as they are. -/
theorem not_isRewritable_iff {ts : List Token} :
    ¬IsRewritable ts ↔ ∀ l : Layer, l.rewrite ts = ts := by
  constructor
  · intro h l
    cases l with
    | declarations => exact Declarations.rewrite_eq_self_iff.2 fun i q hi => h (.declaration hi)
    | commands =>
      refine Commands.rewrite_eq_self_iff.2 fun i name cs hi => ?_
      obtain ⟨x, y, z, hinfix, hx, hy, hz⟩ := Commands.exists_blockAt_iff.1 ⟨i, name, cs, hi⟩
      exact h (.command hinfix hx hy hz)
    | operators =>
      refine Operators.rewrite_eq_self_iff.2 fun r o hr hrule => ?_
      by_contra hlength
      exact h (hrule.isRewritable hr (Nat.lt_of_not_le hlength))
    | signs => exact Signs.rewrite_eq_self_iff.2 fun i t u n hi => h (.sign hi)
  · intro h hts
    have hdeclarations := Declarations.rewrite_eq_self_iff.1 (h .declarations)
    have hcommands := Commands.rewrite_eq_self_iff.1 (h .commands)
    have hoperators := Operators.rewrite_eq_self_iff.1 (h .operators)
    have hsigns := Signs.rewrite_eq_self_iff.1 (h .signs)
    have hsingle {x y : Token} {r : List Token} {o : Token} (hr : x :: y :: r <:+: ts)
        (hrule : Operators.Rule (x :: y :: r) o) : False :=
      Nat.not_le_of_lt (Nat.one_lt_succ_succ _) (hoperators _ o hr hrule)
    cases hts with
    | declaration hi => exact hdeclarations _ _ hi
    | command hr hx hy hz =>
      obtain ⟨i, name, cs, hi⟩ := Commands.exists_blockAt_iff.2 ⟨_, _, _, hr, hx, hy, hz⟩
      exact hcommands i name cs hi
    | negation hr hx hy =>
      exact hsingle hr (.negation hx (by rw [hy]; rfl))
    | totalOrder hr hx hy hz => exact hsingle hr (.totalOrder hx hy hz)
    | function f hr hx hy hz => exact hsingle hr (.function f hx hy hz)
    | string hr hx hy hz => exact hsingle hr (.string hx hy hz)
    | arrowAfter hr hx hy => exact hsingle hr (.arrowAfter hx hy)
    | arrowBefore hr hx hy => exact hsingle hr (.arrowBefore hx hy)
    | sign hi => exact hsigns _ _ _ _ hi

/-- Of tokens none of which is an end token, the filter leaves those alone among which
    there is nothing to rewrite, and no others. -/
theorem filterTokens_eq_self_iff {ts : List Token} (hne : ∀ t ∈ ts, t.kind ≠ .eof) :
    filterTokens ts = .ok ts ↔ ¬IsRewritable ts := by
  rw [filterTokens_eq hne, Except.ok.injEq, Filter.rewrite_eq_self_iff, not_isRewritable_iff]

/-- The tokens of `f: lone x: ! run pred/add one, -> 3 - 4`, where there are beginnings of
    all that the filter looks for, and those of `! = x`. -/
theorem filterTokens_eq_self_iff_of_beginnings :
    let t (kind : TokenKind) (column : Nat) : Token := ⟨kind, none, .point none ⟨1, column⟩⟩
    let name (label : String) (column : Nat) : Token :=
      (t .ident column).withPayload (some (.label label))
    let number (n : Int64) (column : Nat) : Token :=
      (t .number column).withPayload (some (.number n))
    let ts := [name "f" 1, t .colon 2, t (.quantifier .lone) 3, name "x" 4, t .colon 5, t .not 6,
      t (.keyword .run) 7, t (.keyword .pred) 8, t .slash 9, name "add" 10, t (.quantifier .one) 11,
      t .comma 12, t .bareArrow 13, number 3 14, t .minus 15, number 4 16]
    let ts' := [t .not 1, t (.relation .equal) 2, name "x" 3]
    (∀ t ∈ ts, t.kind ≠ .eof) ∧ filterTokens ts = .ok ts ∧ ¬IsRewritable ts ∧
      (∀ t ∈ ts', t.kind ≠ .eof) ∧ IsRewritable ts' ∧ filterTokens ts' ≠ .ok ts' := by
  intro t name number ts ts'
  have hne : ∀ t ∈ ts, t.kind ≠ .eof := by decide +revert
  have hne' : ∀ t ∈ ts', t.kind ≠ .eof := by decide +revert
  have hfilter : filterTokens ts = .ok ts := by decide +kernel
  have hrewritable : IsRewritable ts' :=
    .negation (List.prefix_append [t .not 1, t (.relation .equal) 2] [name "x" 3]).isInfix rfl rfl
  exact ⟨hne, hfilter, (filterTokens_eq_self_iff hne).1 hfilter, hne', hrewritable,
    fun h => (filterTokens_eq_self_iff hne').1 h hrewritable⟩

end AlloyLexical

import AlloyLexical.Proofs.Filter.Staging
import AlloyLexical.Proofs.Layer.Runs

/-!
# Operators, merged greedily

Which tokens make an operator is said by a few rules (`Operators.Rule`), without a
word on how an operator is found. Many runs of tokens may then be merged: in
`a one -> one -> b` the second word belongs to either arrow, and `some` alone is
an operator of its own. The layer of operators goes from left to right, and takes
the longest run at each place (`MergedGreedily`).

* No rule says two things about one run, and so there is one greedy way to merge
  tokens (`MergedGreedily.unique`);
* what a delivery takes is a run of some rule (`Operators.Merges.rule`), and where
  another rule has a run as well, it is no longer (`Operators.Rule.deliver_eq_or`).

Hence the tokens that the layer hands out, reading ahead, giving back what it has no
use for and reading that again, are those that are merged greedily
(`Operators.run_iff_mergedGreedily`).
-/

namespace AlloyLexical

/-! ## Longest runs first -/

/-- The tokens `ts` are cut into runs from left to right, each of which is the
    longest at its place that a token is made of, as `P` says. The tokens made of
    them are `out`. -/
inductive MergedGreedily (P : List Token → Token → Prop) : List Token → List Token → Prop
  | nil : MergedGreedily P [] []
  | run {r ts : List Token} {o : Token} {out : List Token} : P r o →
    (∀ r' o', r' <+: r ++ ts → P r' o' → r'.length ≤ r.length) → MergedGreedily P ts out →
    MergedGreedily P (r ++ ts) (o :: out)

namespace MergedGreedily

variable {P : List Token → Token → Prop} {ts out out' : List Token}

theorem eq_nil (hne : ∀ r o, P r o → r ≠ []) (h : MergedGreedily P [] out) : out = [] := by
  generalize hts : [] = ts at h
  cases h with
  | nil => rfl
  | run hr _ _ => exact absurd (List.append_eq_nil_iff.1 hts.symm).1 (hne _ _ hr)

/-- There is only one greedy way, where one token at most is made of a run. -/
theorem unique (hne : ∀ r o, P r o → r ≠ []) (hP : ∀ r o o', P r o → P r o' → o = o')
    (h : MergedGreedily P ts out) (h' : MergedGreedily P ts out') : out = out' := by
  induction h generalizing out' with
  | nil => exact (h'.eq_nil hne).symm
  | @run r ts o out hr hlongest _ ih =>
    generalize hus : r ++ ts = us at h'
    cases h' with
    | nil => exact absurd (List.append_eq_nil_iff.1 hus).1 (hne _ _ hr)
    | @run r' ts' o' out' hr' hlongest' hts' =>
      -- Both runs begin the same tokens, and neither is longer than the other.
      have hle := hlongest' r o (hus ▸ List.prefix_append r ts) hr
      have hge := hlongest r' o' (hus ▸ List.prefix_append r' ts') hr'
      obtain ⟨rfl, rfl⟩ := List.append_inj hus (Nat.le_antisymm hle hge)
      rw [hP r o o' hr hr', ih hts']

end MergedGreedily

namespace Operators

/-! ## The rules -/

/-- The runs of tokens that make an operator, each with this operator. It spans the
    run from its first to its last token and carries what the first one carries, but
    for a qualified name. A single token is left as it is. -/
inductive Rule : List Token → Token → Prop
  | negation {x y : Token} {kind : TokenKind} : x.kind = .not → y.kind.negated? = some kind →
    Rule [x, y] ⟨kind, x.payload, x.span.merge y.span⟩
  | totalOrder {x y z : Token} : x.kind = .keyword .pred → y.kind = .slash →
    z.isIdent "totalOrder" → Rule [x, y, z] ⟨.totalOrder, x.payload, x.span.merge z.span⟩
  | function {x y z : Token} (f : IntFunction) : x.kind = .keyword .funKw → y.kind = .slash →
    z.isIdent f.label → Rule [x, y, z] ⟨.intFunction f, x.payload, x.span.merge z.span⟩
  | string {x y z : Token} : x.kind = .keyword .funKw → y.kind = .slash → z.isIdent "String" →
    Rule [x, y, z] ⟨.ident, some (.label "fun/String"), x.span.merge z.span⟩
  | arrowBetween {x y z : Token} : x.kind.isMultiplicity → y.kind = .bareArrow →
    z.kind.isMultiplicity →
    Rule [x, y, z] ⟨.arrowBetween (some x.kind) (some z.kind), x.payload, x.span.merge z.span⟩
  | arrowAfter {x y : Token} : x.kind.isMultiplicity → y.kind = .bareArrow →
    Rule [x, y] ⟨.arrowBetween (some x.kind) none, x.payload, x.span.merge y.span⟩
  | arrowBefore {x y : Token} : x.kind = .bareArrow → y.kind.isMultiplicity →
    Rule [x, y] ⟨.arrowBetween none (some y.kind), x.payload, x.span.merge y.span⟩
  | alone (x : Token) : Rule [x] x

theorem Rule.ne_nil {r : List Token} {o : Token} (h : Rule r o) : r ≠ [] := by
  rintro rfl
  cases h

theorem rule_of_member? {x y z m : Token} (hy : y.kind = .slash) (h : member? x z = some m) :
    Rule [x, y, z] m := by
  rw [member?] at h
  split at h
  · next hx hz =>
    rw [← Option.some.inj h]
    exact .totalOrder hx hy (decide_eq_true hz)
  · next hx hz =>
    rw [← Option.some.inj h]
    exact .string hx hy (decide_eq_true hz)
  · next name _ hx hz =>
    obtain ⟨f, hf, rfl⟩ := Option.map_eq_some_iff.1 h
    rw [IntFunction.label_of_ofLabel? hf] at hz
    exact .function f hx hy (decide_eq_true hz)
  · cases h

/-- What a delivery takes, it takes by a rule. -/
theorem Merges.rule {r : List Token} {o : Token} (h : Merges r o) : Rule r o := by
  rcases h with _ | ⟨hx, hy⟩ | ⟨hy, hm⟩ | ⟨hx, hy⟩ | ⟨hx, hy⟩ | ⟨hx, hy, hz⟩
  · exact .alone o
  · exact .negation hx hy
  · exact rule_of_member? hy hm
  · exact .arrowAfter hx hy
  · exact .arrowBefore hx hy
  · exact .arrowBetween hx hy hz

/-! ## Deliveries by the rules -/

theorem member?_of_totalOrder {x z : Token} (hx : x.kind = .keyword .pred)
    (hz : z.isIdent "totalOrder") : member? x z = some (merged x z .totalOrder) := by
  have hname : z.name? = some "totalOrder" := of_decide_eq_true hz
  simp only [member?, hx, hname]

theorem member?_of_string {x z : Token} (hx : x.kind = .keyword .funKw)
    (hz : z.isIdent "String") :
    member? x z = some ⟨.ident, some (.label "fun/String"), x.span.merge z.span⟩ := by
  have hname : z.name? = some "String" := of_decide_eq_true hz
  simp only [member?, hx, hname]

theorem member?_of_function {x z : Token} (f : IntFunction) (hx : x.kind = .keyword .funKw)
    (hz : z.isIdent f.label) : member? x z = some (merged x z (.intFunction f)) := by
  have hname : z.name? = some f.label := of_decide_eq_true hz
  cases f <;> simp only [member?, hx, hname] <;> rfl

section

variable {x y : Token} (ts : List Token)

theorem deliver_of_not (hx : x.kind = .not) : deliver x ts = negate x ts := by
  rw [deliver, hx]

theorem deliver_of_qualifier (hx : x.kind = .keyword .pred ∨ x.kind = .keyword .funKw) :
    deliver x ts = qualify x ts := by
  rcases hx with hx | hx <;> rw [deliver, hx]

theorem deliver_of_bareArrow (hx : x.kind = .bareArrow) : deliver x ts = arrow none x x ts := by
  rw [deliver, hx]

theorem deliver_of_isMultiplicity (hx : x.kind.isMultiplicity) :
    deliver x ts = multiply x ts := by
  rw [deliver]
  split
  · next h => rw [h] at hx; cases hx
  · next h => rw [h] at hx; cases hx
  · next h => rw [h] at hx; cases hx
  · next h => rw [h] at hx; cases hx
  · exact if_pos hx

end

theorem eq_or_length_lt_of_takes {x : Token} {ts : List Token} {d : Token × List Token}
    (h : TakesRun Merges (x :: ts) d) : d = (x, ts) ∨ d.2.length < ts.length := by
  obtain ⟨r, hr, hmerges⟩ := h
  rcases r with _ | ⟨y, _ | ⟨z, r⟩⟩
  · cases hmerges
  · obtain ⟨rfl, hts⟩ := List.cons.inj hr
    cases hmerges
    exact .inl (Prod.ext rfl hts.symm)
  · right
    have hts : ts = z :: (r ++ d.2) := (List.cons.inj hr).2
    rw [hts, List.length_cons, List.length_append]
    omega

/-- Where tokens begin with a run of some rule, a delivery makes what the rule says,
    or else it takes more of them. -/
theorem Rule.deliver_eq_or {x : Token} {r : List Token} {o : Token} (h : Rule (x :: r) o)
    (ts : List Token) :
    deliver x (r ++ ts) = (o, ts) ∨ (deliver x (r ++ ts)).2.length < ts.length := by
  cases h with
  | negation hx hy =>
    left
    rw [deliver_of_not _ hx, List.singleton_append, negate, hy]
    rfl
  | totalOrder hx hy hz =>
    left
    rw [deliver_of_qualifier _ (.inl hx), List.cons_append, List.singleton_append, qualify,
      if_pos hy, member?_of_totalOrder hx hz]
    rfl
  | function f hx hy hz =>
    left
    rw [deliver_of_qualifier _ (.inr hx), List.cons_append, List.singleton_append, qualify,
      if_pos hy, member?_of_function f hx hz]
    rfl
  | string hx hy hz =>
    left
    rw [deliver_of_qualifier _ (.inr hx), List.cons_append, List.singleton_append, qualify,
      if_pos hy, member?_of_string hx hz]
  | arrowBetween hx hy hz =>
    left
    rw [deliver_of_isMultiplicity _ hx, List.cons_append, List.singleton_append, multiply,
      if_pos hy, arrow, if_pos hz]
    rfl
  | arrowAfter hx hy =>
    rw [deliver_of_isMultiplicity _ hx, List.singleton_append, multiply, if_pos hy, arrow.eq_def]
    split
    · exact .inl rfl
    · -- A multiplicity behind the arrow is taken as well.
      split
      · exact .inr (Nat.lt_succ_self _)
      · exact .inl rfl
  | arrowBefore hx hy =>
    left
    rw [deliver_of_bareArrow _ hx, List.singleton_append, arrow, if_pos hy]
    rfl
  | alone => exact eq_or_length_lt_of_takes (takes_deliver x ts)

/-- No rule says two things about one run. -/
theorem Rule.unique {r : List Token} {o o' : Token} (h : Rule r o) (h' : Rule r o') : o = o' := by
  rcases r with _ | ⟨x, r⟩
  · cases h
  have hdeliver {o : Token} (h : Rule (x :: r) o) : deliver x (r ++ []) = (o, []) :=
    (h.deliver_eq_or []).resolve_right (Nat.not_lt_zero _)
  exact (Prod.mk.inj ((hdeliver h).symm.trans (hdeliver h'))).1

/-! ## The layer -/

/-- The layer of operators merges greedily. -/
theorem mergedGreedily_rewriteFrom (last : Option TokenKind) (ts : List Token) :
    MergedGreedily Rule ts (Layer.operators.rewriteFrom last ts) := by
  fun_induction Layer.operators.rewriteFrom last ts with
  | case1 => exact .nil
  | case2 last x ts _ ih =>
    obtain ⟨r, hr, hmerges⟩ := takes_deliver x ts
    rw [hr]
    refine .run hmerges.rule (fun r' o' hprefix hrule => ?_) ih
    -- A longer run would leave fewer tokens than the delivery does.
    obtain ⟨us, hus⟩ := hprefix
    have hleaves : (deliver x ts).2.length ≤ us.length := by
      rcases r' with _ | ⟨x', r'⟩
      · cases hrule
      obtain ⟨rfl, hts⟩ : x' = x ∧ r' ++ us = ts := List.cons.inj (hus.trans hr.symm)
      rw [← hts]
      rcases hrule.deliver_eq_or us with h | h
      · rw [h]
      · exact Nat.le_of_lt h
    have hlength := congrArg List.length hus
    rw [List.length_append, List.length_append] at hlength
    have : (Layer.operators.deliver last x ts).2.length ≤ us.length := hleaves
    omega

/-- Of tokens none of which is an end token, the layer of operators makes those that
    are merged greedily by the rules, and these are the only ones. -/
theorem run_iff_mergedGreedily {ts : List Token} (hne : ∀ t ∈ ts, t.kind ≠ .eof) :
    ∃ out, Layer.operators.run ts = .ok out ∧ ∀ out', MergedGreedily Rule ts out' ↔ out' = out := by
  have hout : MergedGreedily Rule ts (Layer.operators.rewrite ts) :=
    mergedGreedily_rewriteFrom none ts
  have hrun := Layer.operators.run_eq ts
  rw [TokenList.untilEnd_eq_self hne] at hrun
  refine ⟨_, hrun, fun out' => ⟨fun hout' => ?_, fun h => h ▸ hout⟩⟩
  exact hout'.unique (fun _ _ => Rule.ne_nil) (fun _ _ _ => Rule.unique) hout

/-- The tokens of `fun / fun / String some -> one -> lone ! ! in`: a qualifier is read
    again, and so are an arrow and a negation. -/
theorem run_iff_mergedGreedily_of_each_sort :
    let t (kind : TokenKind) (column : Nat) : Token := ⟨kind, none, .point none ⟨1, column⟩⟩
    let merged (kind : TokenKind) (first last : Nat) : Token :=
      ⟨kind, none, ⟨none, ⟨1, first⟩, ⟨1, last⟩⟩⟩
    let ts := [t (.keyword .funKw) 1, t .slash 2, t (.keyword .funKw) 3, t .slash 4,
      (t .ident 5).withPayload (some (.label "String")), t (.quantifier .some) 6, t .bareArrow 7,
      t (.quantifier .one) 8, t .bareArrow 9, t (.quantifier .lone) 10, t .not 11, t .not 12,
      t (.relation .subset) 13]
    let out := [t (.keyword .funKw) 1, t .slash 2,
      (merged .ident 3 5).withPayload (some (.label "fun/String")), merged (.arrow .some .one) 6 8,
      merged (.arrow .any .lone) 9 10, t .not 11, merged (.notRelation .subset) 12 13]
    (∀ t ∈ ts, t.kind ≠ .eof) ∧ Layer.operators.run ts = .ok out ∧ MergedGreedily Rule ts out ∧
      ¬MergedGreedily Rule ts ts := by
  intro t merged ts out
  have hne : ∀ t ∈ ts, t.kind ≠ .eof := by decide +revert
  have hdiffer : ts ≠ out := by decide
  have hrun : Layer.operators.run ts = .ok out := by decide +kernel
  obtain ⟨out', hout', hiff⟩ := run_iff_mergedGreedily hne
  obtain rfl := Except.ok.inj (hrun.symm.trans hout')
  exact ⟨hne, hrun, (hiff _).2 rfl, fun h => hdiffer ((hiff ts).1 h)⟩

end Operators

end AlloyLexical

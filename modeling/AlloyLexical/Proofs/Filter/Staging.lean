import AlloyLexical.Filter
import AlloyLexical.Proofs.Layer.Rewriting

/-!
# Layers one after the other

Pulling tokens through a stack interleaves the work of its layers, each reading
ahead as it must. The tokens that come out are those that come out where every
layer does all of its work before the next one begins: the lowest layer is run
to its end on a list of tokens, the layer above it on the list that came out,
and so on (`Stack.staged`).

Both are the composition of the rewritings of the layers: a stack by
`Stack.collect_ofList`, and a layer alone as it is a stack of one.
-/

namespace AlloyLexical

namespace Layer

/-- What a layer, run to its end, makes of a list of tokens. -/
def run (l : Layer) (ts : List Token) : Except Error (List Token) :=
  (l.atop (TokenList.source Error)).collect (Memory.empty, TokenList.ofList ts)

/-- Run to its end, a layer rewrites the tokens before the end token. -/
theorem run_eq (l : Layer) (ts : List Token) :
    l.run ts = .ok (l.rewrite (TokenList.untilEnd ts)) := Stack.collect_ofList [l] ts

end Layer

namespace Stack

/-- What the layers of a stack, which are given from the top down, make of a
    list if each is run to its end before the one above it. -/
def staged : List Layer → List Token → Except Error (List Token)
  | [], ts => (TokenList.source Error).collect (TokenList.ofList ts)
  | [l], ts => l.run ts
  | l :: l' :: ls, ts => staged (l' :: ls) ts >>= l.run

theorem rewrite_ne_eof (ls : List Layer) {ts : List Token} (hne : ∀ t ∈ ts, t.kind ≠ .eof) :
    ∀ t ∈ rewrite ls ts, t.kind ≠ .eof := by
  induction ls with
  | nil => exact hne
  | cons l ls ih => exact Layer.rewriteFrom_ne_eof ih

theorem staged_eq (ls : List Layer) (ts : List Token) :
    staged ls ts = .ok (rewrite ls (TokenList.untilEnd ts)) := by
  obtain ⟨z, l', h⟩ := TokenList.yields_ofList Error ts
  fun_induction staged ls ts with
  | case1 => exact h.collect_eq
  | case2 l => exact l.run_eq _
  | case3 l l' ls ts ih =>
    rw [ih h]
    -- The layers below leave no end token in the list that the top layer is run on.
    refine (l.run_eq _).trans ?_
    rw [TokenList.untilEnd_eq_self (rewrite_ne_eof (l' :: ls) h.ne_eof)]
    rfl

/-- Whatever layers a stack has, pulling its tokens gives those of its layers run
    one after the other. The filter is the run of its four layers. -/
theorem collect_eq_staged :
    (∀ (ls : List Layer) (ts : List Token), ∃ us,
      (source (TokenList.source Error) ls).collect (fresh (TokenList.ofList ts) ls) = .ok us ∧
        staged ls ts = .ok us) ∧
    ∀ ts, filterTokens ts =
      (Layer.declarations.run ts >>= Layer.commands.run >>= Layer.operators.run >>=
        Layer.signs.run) := by
  refine ⟨fun ls ts => ⟨_, collect_ofList ls ts, staged_eq ls ts⟩, fun ts => ?_⟩
  show filterTokens ts = staged Filter.layers ts
  rw [staged_eq]
  exact collect_ofList Filter.layers ts

end Stack

/-- The filter gives what its layers make of tokens none of which is an end
    token. -/
theorem filterTokens_eq {ts : List Token} (hne : ∀ t ∈ ts, t.kind ≠ .eof) :
    filterTokens ts = .ok (Stack.rewrite Filter.layers ts) := by
  have h := Stack.collect_ofList Filter.layers ts
  rw [TokenList.untilEnd_eq_self hne] at h
  exact h

end AlloyLexical

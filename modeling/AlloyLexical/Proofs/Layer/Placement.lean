import AlloyLexical.Proofs.Layer.Rewriting

/-!
# Layers and the places of tokens

No layer asks where a token stands: all that is done to spans is to merge them.
So the tokens of a list may be moved to other places before they are rewritten or
after that, as long as the move preserves merged spans (`Span.PreservesMerge`).

Each layer is shown to deliver the same token in another place, with the same
tokens behind it (`Layer.deliver_moved`). It follows for whole rewritings, by the
recursion that makes them of deliveries, and for stacks of layers
(`Stack.rewrite_moved`).
-/

namespace AlloyLexical

/-- A move of spans for which it makes no difference whether spans are merged
    before it or after it. -/
def Span.PreservesMerge (f : Span → Span) : Prop := ∀ a b, f (a.merge b) = (f a).merge (f b)

theorem Span.PreservesMerge.merge_eq {f : Span → Span} (hf : PreservesMerge f) (a b : Span) :
    (f a).merge (f b) = f (a.merge b) := (hf a b).symm

namespace Token

/-- The token in another place. -/
def moved (f : Span → Span) (t : Token) : Token := { t with span := f t.span }

variable (f : Span → Span) (t : Token)

@[simp] theorem kind_moved : (t.moved f).kind = t.kind := rfl

@[simp] theorem payload_moved : (t.moved f).payload = t.payload := rfl

@[simp] theorem span_moved : (t.moved f).span = f t.span := rfl

@[simp] theorem number?_moved : (t.moved f).number? = t.number? := rfl

@[simp] theorem name?_moved : (t.moved f).name? = t.name? := rfl

end Token

/-- A delivery of tokens in other places. -/
def movedDelivery (f : Span → Span) (d : Token × List Token) : Token × List Token :=
  (d.1.moved f, d.2.map (Token.moved f))

@[simp] theorem movedDelivery_mk (f : Span → Span) (t : Token) (ts : List Token) :
    movedDelivery f (t, ts) = (t.moved f, ts.map (Token.moved f)) := rfl

variable {f : Span → Span}

/-! ## Declarations -/

namespace Declarations

theorem startsWithNames_moved (ts : List Token) :
    startsWithNames (ts.map (Token.moved f)) = startsWithNames ts := by
  fun_induction startsWithNames ts with
  | case1 t u ts ih =>
    rw [List.map_cons, List.map_cons, startsWithNames, ih]
    rfl
  | case2 ts hts =>
    rcases ts with _ | ⟨t, _ | ⟨u, ts⟩⟩
    · rfl
    · rfl
    · exact absurd rfl (hts t u ts)

theorem dropPrivate_moved (ts : List Token) :
    dropPrivate (ts.map (Token.moved f)) = (dropPrivate ts).map (Token.moved f) := by
  rcases ts with _ | ⟨t, ts⟩
  · rfl
  · exact (apply_ite (List.map (Token.moved f)) _ ts (t :: ts)).symm

theorem dropDisposition_moved (ts : List Token) :
    dropDisposition (ts.map (Token.moved f)) = (dropDisposition ts).map (Token.moved f) := by
  rcases ts with _ | ⟨t, ts⟩
  · rfl
  · exact (apply_ite (List.map (Token.moved f)) _ ts (t :: ts)).symm

theorem startsWithHead_moved (ts : List Token) :
    startsWithHead (ts.map (Token.moved f)) = startsWithHead ts := by
  rw [startsWithHead, dropPrivate_moved, dropDisposition_moved, startsWithNames_moved,
    startsWithHead]

theorem deliver_moved (last : Option TokenKind) (t : Token) (ts : List Token) :
    deliver last (t.moved f) (ts.map (Token.moved f)) = movedDelivery f (deliver last t ts) := by
  rw [deliver, deliver, Token.kind_moved, startsWithHead_moved]
  split
  · split <;> rfl
  · rfl

end Declarations

/-! ## Commands -/

namespace Commands

theorem deliver_moved (t : Token) (ts : List Token) :
    deliver (t.moved f) (ts.map (Token.moved f)) = movedDelivery f (deliver t ts) := by
  rcases ts with _ | ⟨u, _ | ⟨v, ts⟩⟩
  · rfl
  · rfl
  · simp only [List.map_cons, deliver, Token.kind_moved]
    split <;> rfl

end Commands

/-! ## Operators -/

namespace Operators

variable (hf : Span.PreservesMerge f)
include hf

theorem merged_moved (t u : Token) (kind : TokenKind) :
    merged (t.moved f) (u.moved f) kind = (merged t u kind).moved f := by
  simp only [merged, Token.covering, Token.withKind, Token.moved, hf.merge_eq]

theorem member?_moved (t u : Token) :
    member? (t.moved f) (u.moved f) = (member? t u).map (Token.moved f) := by
  rw [member?.eq_def, member?.eq_def, Token.kind_moved, Token.name?_moved]
  split
  · rw [merged_moved hf]
    rfl
  · rw [Token.span_moved, Token.span_moved, hf.merge_eq]
    rfl
  · simp only [merged_moved hf, Option.map_map]
    rfl
  · rfl

theorem negate_moved (t : Token) (ts : List Token) :
    negate (t.moved f) (ts.map (Token.moved f)) = movedDelivery f (negate t ts) := by
  rcases ts with _ | ⟨u, us⟩
  · rfl
  · simp only [List.map_cons, negate, Token.kind_moved, merged_moved hf]
    split <;> rfl

theorem qualify_moved (t : Token) (ts : List Token) :
    qualify (t.moved f) (ts.map (Token.moved f)) = movedDelivery f (qualify t ts) := by
  rcases ts with _ | ⟨u, _ | ⟨v, us⟩⟩
  · rfl
  · rfl
  · simp only [List.map_cons, qualify, Token.kind_moved, member?_moved hf]
    split
    · cases member? t v <;> rfl
    · rfl

theorem arrow_moved (left : Option TokenKind) (t u : Token) (ts : List Token) :
    arrow left (t.moved f) (u.moved f) (ts.map (Token.moved f)) =
      movedDelivery f (arrow left t u ts) := by
  rcases ts with _ | ⟨v, vs⟩
  · simp only [List.map_nil, arrow, merged_moved hf]
    rfl
  · simp only [List.map_cons, arrow, Token.kind_moved, merged_moved hf]
    split <;> rfl

theorem multiply_moved (t : Token) (ts : List Token) :
    multiply (t.moved f) (ts.map (Token.moved f)) = movedDelivery f (multiply t ts) := by
  rcases ts with _ | ⟨u, us⟩
  · rfl
  · simp only [List.map_cons, multiply, Token.kind_moved, arrow_moved hf]
    split <;> rfl

theorem deliver_moved (t : Token) (ts : List Token) :
    deliver (t.moved f) (ts.map (Token.moved f)) = movedDelivery f (deliver t ts) := by
  rw [deliver.eq_def, deliver.eq_def, Token.kind_moved]
  split
  · exact negate_moved hf t ts
  · exact qualify_moved hf t ts
  · exact qualify_moved hf t ts
  · exact arrow_moved hf none t t ts
  · split
    · exact multiply_moved hf t ts
    · rfl

end Operators

/-! ## Signs -/

namespace Signs

theorem value?_moved (t : Token) : value? (t.moved f) = value? t := rfl

theorem deliver_moved (hf : Span.PreservesMerge f) (last : Option TokenKind) (t : Token)
    (ts : List Token) :
    deliver last (t.moved f) (ts.map (Token.moved f)) = movedDelivery f (deliver last t ts) := by
  rw [deliver.eq_def, deliver.eq_def, Token.kind_moved]
  split
  · rcases ts with _ | ⟨u, us⟩
    · rfl
    · simp only [List.map_cons, sign, value?_moved, Token.span_moved, hf.merge_eq]
      split <;> rfl
  · rfl

end Signs

/-! ## All layers -/

variable (hf : Span.PreservesMerge f)
include hf

namespace Layer

theorem deliver_moved (l : Layer) (last : Option TokenKind) (t : Token) (ts : List Token) :
    l.deliver last (t.moved f) (ts.map (Token.moved f)) =
      movedDelivery f (l.deliver last t ts) := by
  cases l with
  | declarations => exact Declarations.deliver_moved last t ts
  | commands => exact Commands.deliver_moved t ts
  | operators => exact Operators.deliver_moved hf t ts
  | signs => exact Signs.deliver_moved hf last t ts

theorem rewriteFrom_moved (l : Layer) (last : Option TokenKind) (ts : List Token) :
    l.rewriteFrom last (ts.map (Token.moved f)) =
      (l.rewriteFrom last ts).map (Token.moved f) := by
  fun_induction l.rewriteFrom last ts with
  | case1 last => exact l.rewriteFrom_nil last
  | case2 last t ts _ ih =>
    rw [List.map_cons, rewriteFrom_cons, deliver_moved hf]
    exact congrArg _ ih

end Layer

/-- Layers make the same tokens of tokens in other places, each in its other
    place. -/
theorem Stack.rewrite_moved (ls : List Layer) (ts : List Token) :
    rewrite ls (ts.map (Token.moved f)) = (rewrite ls ts).map (Token.moved f) := by
  induction ls with
  | nil => rfl
  | cons l ls ih =>
    rw [rewrite, List.foldr_cons, ← rewrite, ih]
    exact Layer.rewriteFrom_moved hf l none _

end AlloyLexical

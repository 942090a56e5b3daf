import AlloyLexical.Proofs.Filter.Staging
import AlloyLexical.Proofs.Layer.Runs

/-!
# Signs and their neighbours

The layer of signs decides by the token that it handed out last, and this may be a
number that it has made itself, or a minus sign that it has looked at before. Still
one can tell from the tokens that the layer is given which minus signs are signs
(`Signs.SignAt`): a number is behind the minus sign, and no operand ends in front of
it. For a signed number that is handed out ends an operand, and so does the number
that is part of it.

What the layer makes of tokens is thus said place by place
(`Signs.run_by_neighbours`): a sign and its number come to one token, and every other
token comes to itself. No number is a minus sign, and so no token is needed twice
(`Signs.SignAt.not_next`).
-/

namespace AlloyLexical

namespace Signs

/-! ## Signs among tokens -/

/-- The kind of the token in front of the place `i`. The last token before all of them
    had the kind `last`. -/
def kindBefore (last : Option TokenKind) (ts : List Token) : Nat → Option TokenKind
  | 0 => last
  | i + 1 => ts[i]?.map Token.kind

/-- The token `t` at the place `i` is a sign: it is a minus sign, behind it is the
    token `u` with the number `n`, and in front of it no operand ends. -/
structure SignAt (last : Option TokenKind) (ts : List Token) (i : Nat) (t u : Token) (n : Int64) :
    Prop where
  sign : ts[i]? = some t
  number : ts[i + 1]? = some u
  isMinus : t.kind = .minus
  isNumber : u.kind = .number
  value : u.payload = some (.number n)
  free : ∀ k ∈ kindBefore last ts i, ¬k.endsOperand

/-- The number `u`, whose value is `n`, with the sign `t`. -/
def signed (t u : Token) (n : Int64) : Token :=
  ⟨.number, some (.number (-n)), t.span.merge u.span⟩

variable {last : Option TokenKind} {ts : List Token} {i : Nat} {t u : Token} {n : Int64}

theorem value?_eq_some_iff :
    value? u = some n ↔ u.kind = .number ∧ u.payload = some (.number n) := by
  constructor
  · exact fun h => ⟨kind_of_value? h, Token.payload_of_number? (number?_of_value? h)⟩
  · rintro ⟨hu, hpayload⟩
    rw [value?, if_pos hu, Token.number?, hpayload]

theorem admitsSign_iff : admitsSign last ↔ ∀ k ∈ last, ¬k.endsOperand := by
  cases last <;> simp [admitsSign]

namespace SignAt

/-- A sign behind another token. -/
theorem cons_iff {s : Token} :
    SignAt last (s :: ts) (i + 1) t u n ↔ SignAt (some s.kind) ts i t u n := by
  have hbefore : kindBefore last (s :: ts) (i + 1) = kindBefore (some s.kind) ts i := by
    cases i <;> rfl
  constructor <;> intro h
  · exact ⟨h.sign, h.number, h.isMinus, h.isNumber, h.value, hbefore ▸ h.free⟩
  · exact ⟨h.sign, h.number, h.isMinus, h.isNumber, h.value, hbefore ▸ h.free⟩

/-- What is behind a sign is no sign. -/
theorem not_next {t' u' : Token} {n' : Int64} (h : SignAt last ts i t u n) :
    ¬SignAt last ts (i + 1) t' u' n' := by
  intro h'
  obtain rfl := Option.some.inj (h.number.symm.trans h'.sign)
  cases h.isNumber.symm.trans h'.isMinus

/-- A sign in hand is merged with its number. -/
theorem deliver_eq (h : SignAt last (t :: u :: ts) 0 t u n) :
    deliver last t (u :: ts) = (signed t u n, ts) := by
  rw [deliver, if_pos ⟨h.isMinus, admitsSign_iff.2 h.free⟩, Signs.sign,
    value?_eq_some_iff.2 ⟨h.isNumber, h.value⟩]
  rfl

end SignAt

/-- A token in hand that is no sign is handed out as it is. -/
theorem deliver_of_not_signAt (h : ∀ u n, ¬SignAt last (t :: ts) 0 t u n) :
    deliver last t ts = (t, ts) := by
  rw [deliver]
  split
  · next ht =>
    rcases ts with _ | ⟨u, ts⟩
    · rfl
    · rw [sign]
      split
      · next n hn =>
        obtain ⟨hu, hvalue⟩ := value?_eq_some_iff.1 hn
        exact absurd ⟨rfl, rfl, ht.1, hu, hvalue, admitsSign_iff.1 ht.2⟩ (h u n)
      · rfl
  · rfl

/-! ## Place by place -/

/-- What each place comes to: a sign comes to the signed number, its number to
    nothing, and any other token to itself. -/
structure Outcome (last : Option TokenKind) (ts : List Token) (made : Nat → Option Token) :
    Prop where
  signed : ∀ i t u n, SignAt last ts i t u n → made i = some (signed t u n) ∧ made (i + 1) = none
  kept : ∀ i, (∀ t u n, ¬SignAt last ts i t u n) →
    (∀ j t u n, i = j + 1 → ¬SignAt last ts j t u n) → made i = ts[i]?

namespace Outcome

variable {made : Nat → Option Token}

/-- A token that is no sign comes to itself, in front of others. -/
theorem cons (h : Outcome (some t.kind) ts made) (ht : ∀ u n, ¬SignAt last (t :: ts) 0 t u n) :
    Outcome last (t :: ts) fun | 0 => some t | i + 1 => made i where
  signed i t' u n hsign := by
    rcases i with _ | i
    · obtain rfl : t = t' := Option.some.inj hsign.sign
      exact absurd hsign (ht u n)
    · exact h.signed i t' u n (SignAt.cons_iff.1 hsign)
  kept i hsign hnumber := by
    rcases i with _ | i
    · rfl
    · refine h.kept i (fun t u n hi => hsign t u n (SignAt.cons_iff.2 hi)) fun j t u n hij hj => ?_
      exact hnumber (j + 1) t u n (congrArg Nat.succ hij) (SignAt.cons_iff.2 hj)

/-- A sign and its number come to the signed number, in front of others. -/
theorem cons_signed (h : Outcome (some .number) ts made)
    (ht : SignAt last (t :: u :: ts) 0 t u n) :
    Outcome last (t :: u :: ts)
      fun | 0 => some (Signs.signed t u n) | 1 => none | i + 2 => made i where
  signed i t' u' n' hsign := by
    rcases i with _ | _ | i
    · obtain rfl : t = t' := Option.some.inj hsign.sign
      obtain rfl : u = u' := Option.some.inj hsign.number
      cases ht.value.symm.trans hsign.value
      exact ⟨rfl, rfl⟩
    · exact absurd hsign ht.not_next
    · rw [SignAt.cons_iff, SignAt.cons_iff, ht.isNumber] at hsign
      exact h.signed i t' u' n' hsign
  kept i hsign hnumber := by
    rcases i with _ | _ | i
    · exact absurd ht (hsign t u n)
    · exact absurd ht (hnumber 0 t u n rfl)
    · have hcons {j : Nat} {t' u' : Token} {n' : Int64}
          (hj : SignAt (some .number) ts j t' u' n') :
          SignAt last (t :: u :: ts) (j + 2) t' u' n' := by
        rwa [SignAt.cons_iff, SignAt.cons_iff, ht.isNumber]
      refine h.kept i (fun t u n hi => hsign t u n (hcons hi)) fun j t u n hij hj => ?_
      exact hnumber (j + 2) t u n (congrArg (· + 2) hij) (hcons hj)

end Outcome

/-- The layer of signs hands out what the places come to, one after the other. -/
theorem exists_outcome (last : Option TokenKind) (ts : List Token) : ∃ made,
    Layer.signs.rewriteFrom last ts = (List.range ts.length).filterMap made ∧
      Outcome last ts made := by
  fun_induction Layer.signs.rewriteFrom last ts with
  | case1 last =>
    refine ⟨fun _ => none, rfl, ⟨fun i t u n h => ?_, fun _ _ _ => rfl⟩⟩
    cases h.sign
  | case2 last t ts _ ih =>
    have hd : Layer.signs.deliver last t ts = deliver last t ts := rfl
    rw [hd] at ih ⊢
    by_cases h : ∃ u n, SignAt last (t :: ts) 0 t u n
    · obtain ⟨u, n, h⟩ := h
      obtain ⟨us, rfl⟩ : ∃ us, ts = u :: us :=
        List.head?_eq_some_iff.1 (List.head?_eq_getElem? ▸ h.number)
      rw [h.deliver_eq] at ih ⊢
      obtain ⟨made, hmade, houtcome⟩ := ih
      refine ⟨_, ?_, houtcome.cons_signed h⟩
      rw [hmade, List.length_cons, List.length_cons, List.range_succ_eq_map,
        List.range_succ_eq_map, List.filterMap_cons, List.map_cons, List.filterMap_cons,
        List.map_map, List.filterMap_map]
      rfl
    · have hfree : ∀ u n, ¬SignAt last (t :: ts) 0 t u n := fun u n hu => h ⟨u, n, hu⟩
      rw [deliver_of_not_signAt hfree] at ih ⊢
      obtain ⟨made, hmade, houtcome⟩ := ih
      refine ⟨_, ?_, houtcome.cons hfree⟩
      rw [hmade, List.length_cons, List.range_succ_eq_map, List.filterMap_cons, List.filterMap_map]
      rfl

/-- Of tokens none of which is an end token, the layer of signs hands out what their
    places come to by their neighbours, and no two signs with their numbers have a
    token in common. -/
theorem run_by_neighbours (hne : ∀ t ∈ ts, t.kind ≠ .eof) :
    (∃ made, Layer.signs.run ts = .ok ((List.range ts.length).filterMap made) ∧
      Outcome none ts made) ∧
    ∀ i j t u n t' u' n', SignAt none ts i t u n → SignAt none ts j t' u' n' → i < j →
      i + 1 < j := by
  constructor
  · obtain ⟨made, hmade, houtcome⟩ := exists_outcome none ts
    refine ⟨made, ?_, houtcome⟩
    rw [Layer.run_eq, TokenList.untilEnd_eq_self hne]
    exact congrArg Except.ok hmade
  · intro i j t u n t' u' n' hi hj hij
    refine Nat.lt_of_le_of_ne hij ?_
    rintro rfl
    exact hi.not_next hj

/-- The tokens of `- - 3 - 4 = - n , -`, where `n` is the least number, and then a
    token of the kind of numbers without any. -/
theorem run_by_neighbours_of_each_sort :
    let t (kind : TokenKind) (column : Nat) : Token := ⟨kind, none, .point none ⟨1, column⟩⟩
    let number (n : Int64) (first last : Nat) : Token :=
      ⟨.number, some (.number n), ⟨none, ⟨1, first⟩, ⟨1, last⟩⟩⟩
    let ts := [t .minus 1, t .minus 2, number 3 3 3, t .minus 4, number 4 5 5,
      t (.relation .equal) 6, t .minus 7, number Int64.minValue 8 8, t .comma 9, t .minus 10,
      t .number 11]
    let out := [t .minus 1, number (-3) 2 3, t .minus 4, number 4 5 5, t (.relation .equal) 6,
      number Int64.minValue 7 8, t .comma 9, t .minus 10, t .number 11]
    (∀ t ∈ ts, t.kind ≠ .eof) ∧ Layer.signs.run ts = .ok out ∧
      SignAt none ts 1 (t .minus 2) (number 3 3 3) 3 ∧
      SignAt none ts 6 (t .minus 7) (number Int64.minValue 8 8) Int64.minValue ∧
      ∃ made, out = (List.range 11).filterMap made ∧ Outcome none ts made ∧
        made 1 = some (number (-3) 2 3) ∧ made 2 = none := by
  intro t number ts out
  have hne : ∀ t ∈ ts, t.kind ≠ .eof := by decide +revert
  have hrun : Layer.signs.run ts = .ok out := by decide +kernel
  have hsign : SignAt none ts 1 (t .minus 2) (number 3 3 3) 3 :=
    ⟨rfl, rfl, rfl, rfl, rfl, by rintro _ ⟨⟩; exact nofun⟩
  have hsign' :
      SignAt none ts 6 (t .minus 7) (number Int64.minValue 8 8) Int64.minValue :=
    ⟨rfl, rfl, rfl, rfl, rfl, by rintro _ ⟨⟩; exact nofun⟩
  obtain ⟨⟨made, hmade, houtcome⟩, -⟩ := run_by_neighbours hne
  exact ⟨hne, hrun, hsign, hsign', made, Except.ok.inj (hrun.symm.trans hmade), houtcome,
    houtcome.signed 1 _ _ _ hsign⟩

end Signs

end AlloyLexical

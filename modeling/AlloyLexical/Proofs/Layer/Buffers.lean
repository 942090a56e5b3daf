import AlloyLexical.Proofs.Layer.Blocks
import AlloyLexical.Proofs.Layer.Course
import AlloyLexical.Proofs.Layer.Greedy

/-!
# Buffers of the upper layers

The layer of declarations may have to look over any number of names. The layers above it
look at two tokens at most behind the one in hand (`Commands.ahead_eq`,
`Operators.ahead_le`, `Signs.ahead_le`), so that they never have many tokens in their memory
(`Layer.Stage.length_pending_le`).

* Layers that merge lose nothing and keep the order: what such a layer has read is what the
  tokens that it has handed out were made of, and behind it what is in its memory
  (`Layer.accounts`);
* the layer of commands keeps two tokens in its memory, or all that are left, whether it has
  turned any of them around or not (`Commands.length_pending`). So it has read its source
  two times more than it has been pulled (`Commands.readings_eq`).
-/

namespace AlloyLexical

/-! ## How far the layers look -/

namespace Outlook

/-- Whether the second token settles the matter, if not the first one does. -/
def isShort : Outlook → Bool
  | one | two | member | arrow => true
  | _ => false

theorem reach_one_le (ts : List Token) : one.reach ts ≤ 1 := by
  rcases ts with _ | ⟨t, ts⟩
  · exact Nat.zero_le 1
  · exact Nat.le_of_eq (reach_cons_of_none rfl ts)

theorem eq_one_of_advance {q q' : Outlook} {k : TokenKind} (hq : q.isShort)
    (h : q.advance k = some q') : q' = one := by
  rw [advance.eq_def] at h
  split at h
  all_goals first | exact (Option.some.inj h).symm | contradiction

theorem reach_le_two {q : Outlook} (hq : q.isShort) (ts : List Token) : q.reach ts ≤ 2 := by
  rcases ts with _ | ⟨t, ts⟩
  · exact Nat.zero_le 2
  rcases hadvance : q.advance t.kind with _ | q'
  · rw [reach_cons_of_none hadvance]
    exact Nat.le_succ 1
  · obtain rfl := eq_one_of_advance hq hadvance
    rw [reach_cons_of_some hadvance]
    exact Nat.succ_le_succ (reach_one_le ts)

end Outlook

/-- The layer of operators looks at two tokens at most. -/
theorem Operators.ahead_le (last : Option TokenKind) (t : Token) (ts : List Token) :
    Layer.operators.ahead last t ts ≤ 2 := by
  have hshort : ∀ q, outlook t = some q → q.isShort := by
    intro q hq
    rw [outlook.eq_def] at hq
    split at hq
    case h_5 =>
      split at hq
      · cases hq
        rfl
      · cases hq
    all_goals
      cases hq
      rfl
  rw [Layer.ahead]
  split
  · exact Nat.zero_le 2
  · next q hq => exact Outlook.reach_le_two (hshort q hq) ts

/-- The layer of signs looks at one token at most. -/
theorem Signs.ahead_le (last : Option TokenKind) (t : Token) (ts : List Token) :
    Layer.signs.ahead last t ts ≤ 1 := by
  rw [Layer.ahead]
  split
  · exact Nat.zero_le 1
  · next q hq =>
    obtain rfl : Outlook.one = q := by
      rw [Layer.outlook, outlook] at hq
      split at hq
      · exact Option.some.inj hq
      · cases hq
    exact Outlook.reach_one_le ts

/-- The layer of commands looks at two tokens, as far as there are two. -/
theorem Commands.ahead_eq (last : Option TokenKind) {t z : Token} {ts : List Token}
    (hts : ∀ u ∈ t :: ts, u.kind ≠ .eof) (hz : z.kind = .eof) :
    Layer.commands.ahead last t (ts ++ [z]) = min 2 (ts.length + 1) := by
  have houtlook : Layer.commands.outlook last t = some .two :=
    if_neg (hts t List.mem_cons_self)
  rw [Layer.ahead, houtlook]
  rcases ts with _ | ⟨u, ts⟩
  · exact Outlook.reach_cons_of_none (by rw [hz, Outlook.advance_eof]) []
  · have hu : u.kind ≠ .eof := hts u (by simp)
    have hadvance : Outlook.two.advance u.kind = some .one := by
      rw [Outlook.advance.eq_def]
      split <;> simp_all
    obtain ⟨v, vs, hvs⟩ := List.exists_cons_of_ne_nil (List.concat_ne_nil z ts)
    have hone : Outlook.one.reach (v :: vs) = 1 := Outlook.reach_cons_of_none rfl vs
    simp only [List.cons_append, Outlook.reach_cons_of_some hadvance]
    rw [hvs, hone, List.length_cons]
    omega

/-! ## Memories -/

namespace Layer

variable {l : Layer} {ts rest : List Token} {z : Token} {k r : Nat} {m : Memory}

/-- A layer does not remember more tokens than it looks at. -/
theorem Stage.length_pending_le {bound : Nat}
    (hl : ∀ last t ts, l.ahead last t ts ≤ bound) (h : l.Stage ts z k m r rest) :
    m.pending.length ≤ bound := by
  induction h with
  | start => exact Nat.zero_le _
  | @next k m r t rest _ ih =>
    calc
      (l.deliver m.last t (l.sight m t (rest ++ [z]))).2.length
        ≤ (l.sight m t (rest ++ [z])).length := l.length_deliver_le _ _ _
      _ ≤ max (m.pending.length - 1) (l.ahead m.last t (rest ++ [z])) := List.length_take_le _ _
      _ ≤ bound := Nat.max_le.2 ⟨(Nat.sub_le _ 1).trans ih, hl _ _ _⟩

/-- What a layer has handed out at some stage is made of the tokens that are not left. -/
theorem Stage.mergedBy {P : List Token → Token → Prop}
    (hP : ∀ last t ts, TakesRun P (t :: ts) (l.deliver last t ts))
    (h : l.Stage ts z k m r rest) :
    ∃ consumed, ts = consumed ++ rest ∧ MergedBy P consumed ((l.rewrite ts).take k) := by
  induction h with
  | start => exact ⟨[], rfl, .nil⟩
  | @next k m r t rest h ih =>
    obtain ⟨consumed, hconsumed, hmerged⟩ := ih
    obtain ⟨run, hrun, hmade⟩ := hP m.last t rest
    have hout : (l.rewrite ts).take (k + 1) =
        (l.rewrite ts).take k ++ [(l.deliver m.last t rest).1] := by
      rw [List.take_add, ← h.rewriteFrom_eq, rewriteFrom_cons]
      rfl
    refine ⟨consumed ++ run, ?_, ?_⟩
    · rw [hconsumed, hrun, List.append_assoc]
    · rw [hout]
      exact hmerged.concat hmade

end Layer

namespace Commands

variable {ts rest : List Token} {z : Token} {k r : Nat} {m : Memory}

/-- There are two tokens in the memory, with the end token as the last one, if there are no
    more left. -/
theorem length_pending (hts : ∀ t ∈ ts, t.kind ≠ .eof) (hz : z.kind = .eof)
    (h : Layer.commands.Stage ts z k m r rest) :
    rest.length + k = ts.length ∧ m.pending.length ≤ 2 ∧
      (1 ≤ k → m.pending.length = min 2 (rest.length + 1)) := by
  induction h with
  | start => exact ⟨rfl, Nat.zero_le 2, nofun⟩
  | @next k m r t rest h ih =>
    obtain ⟨hrest, hpending, -⟩ := ih
    have hlength (us : List Token) : (Layer.commands.deliver m.last t us).2.length = us.length :=
      length_deliver t us
    have hahead := ahead_eq m.last (h.ne_eof hts) hz
    have hle := Layer.commands.ahead_le_length m.last t (rest ++ [z])
    rw [List.length_cons] at hrest
    simp only [hlength, Layer.sight, List.length_take, List.length_append, List.length_singleton,
      hahead] at hle ⊢
    omega

/-- Two more readings than deliveries, as long as there is something to read. -/
theorem readings_eq (hts : ∀ t ∈ ts, t.kind ≠ .eof) (hz : z.kind = .eof) (hk : 1 ≤ k)
    (h : Layer.commands.Stage ts z k m r rest) : r = min (k + 2) (ts.length + 1) := by
  obtain ⟨hrest, -, hpending⟩ := length_pending hts hz h
  have hreadings := h.readings_add hz
  have hpending := hpending hk
  omega

end Commands

/-! ## Layers on sources -/

namespace Layer

variable {σ : Type} {S : Source Error σ} {s s' : σ}

/-- A layer has been pulled `k` times, from the state `start` on, and has handed out the
    tokens `out`. It has no more than `bound` tokens in its memory. Those that it has read are
    the first ones of `ts`: in order, those that the tokens of `out` were made of, as `P`
    says, and then those in the memory. -/
structure Accounts (L : Source Error (Memory × Counted σ)) (start : Memory × Counted σ)
    (P : List Token → Token → Prop) (bound : Nat) (ts : List Token) (k : Nat)
    (out : List Token) : Prop where
  answers_eq : (L.answers k start).map Prod.fst = out.map .ok
  length_le : (L.after k start).1.pending.length ≤ bound
  readings_le : (L.after k start).2.readings ≤ ts.length
  lossless : ∃ consumed, MergedBy P consumed out ∧
    ts.take (L.after k start).2.readings = consumed ++ (L.after k start).1.pending

/-- A layer that merges and does not look far. -/
theorem accounts {l : Layer} {P : List Token → Token → Prop} {bound : Nat} {ts : List Token}
    {z : Token} {k : Nat} (hkeeps : l.keepsEnd = false)
    (hP : ∀ last t ts, TakesRun P (t :: ts) (l.deliver last t ts)) (halone : ∀ t, P [t] t)
    (hl : ∀ last t ts, l.ahead last t ts ≤ bound) (h : S.Yields s ts (.ok z) s')
    (hk : k ≤ (l.rewrite ts).length + 1) :
    Accounts (l.atop (Counted.source S)) (Memory.empty, Counted.fresh s) P bound (ts ++ [z]) k
      ((l.rewrite ts ++ [z]).take k) := by
  have hs := Counted.yields h 0
  have hrun := yields_rewrite (l := l) hs
  have hstate : ∃ m r consumed,
      (l.atop (Counted.source S)).after k (Memory.empty, Counted.fresh s) =
        (m, ⟨S.after r s, 0 + r⟩) ∧
      m.pending.length ≤ bound ∧ r ≤ (ts ++ [z]).length ∧
      MergedBy P consumed ((l.rewrite ts ++ [z]).take k) ∧
      (ts ++ [z]).take r = consumed ++ m.pending := by
    rw [List.length_append, List.length_singleton]
    rcases Nat.lt_or_eq_of_le hk with hk | rfl
    · obtain ⟨m, r, rest, hstage⟩ := l.exists_stage ts z (Nat.le_of_lt_succ hk)
      obtain ⟨hr, hpending⟩ := hstage.pending_append h.ends
      obtain ⟨consumed, hconsumed, hmerged⟩ := hstage.mergedBy hP
      refine ⟨m, r, consumed, ?_, hstage.length_pending_le hl, hr, ?_, ?_⟩
      · rw [← Counted.after_mk]
        exact hstage.after_eq hs.hands h.ne_eof h.ends
      · rwa [List.take_append_of_le_length (Nat.le_of_lt_succ hk)]
      · have hall : (ts ++ [z]).take r ++ (ts ++ [z]).drop r =
            consumed ++ m.pending ++ (ts ++ [z]).drop r := by
          rw [List.take_append_drop, List.append_assoc, hpending, ← List.append_assoc, ← hconsumed]
        exact List.append_cancel_right hall
    · -- The end token has been handed out, and nothing is left.
      have hmemory : (l.endMemory z).pending = [] := by
        rw [endMemory, hkeeps]
        rfl
      refine ⟨l.endMemory z, ts.length + 1, ts ++ [z], ?_, ?_, Nat.le_refl _, ?_, ?_⟩
      · rw [← Counted.after_mk]
        exact l.after_length_succ hs.hands h.ne_eof h.ends
      · rw [hmemory]
        exact Nat.zero_le _
      · rw [List.take_of_length_le (by rw [List.length_append, List.length_singleton])]
        exact (mergedBy_rewriteFrom hP none ts).concat (halone z)
      · rw [hmemory, List.append_nil, List.take_of_length_le]
        rw [List.length_append, List.length_singleton]
  obtain ⟨m, r, consumed, hafter, hpending, hr, hmerged, htake⟩ := hstate
  exact
    { answers_eq := hrun.hands.answers (by rwa [List.length_append, List.length_singleton])
      length_le := by rwa [hafter]
      readings_le := by rwa [hafter, Nat.zero_add]
      lossless := ⟨consumed, hmerged, by rwa [hafter, Nat.zero_add]⟩ }

/-- On a source of some tokens and an end token, whatever comes behind it, and as long as the
    end token has not been handed out twice, the layer of operators has two tokens in its
    memory at most and the layer of signs one, and neither loses a token or changes their
    order. The layer of commands, once it has been pulled, has read its source two times more
    often than it was pulled, or up to the end token. -/
theorem buffers_bounded {ts : List Token} {z : Token} (h : S.Yields s ts (.ok z) s') :
    let on (l : Layer) := l.atop (Counted.source S)
    let start : Memory × Counted σ := (Memory.empty, Counted.fresh s)
    (∃ out st, (on .operators).Yields start out (.ok z) st ∧ ∀ k ≤ out.length + 1,
      Accounts (on .operators) start Operators.Rule 2 (ts ++ [z]) k ((out ++ [z]).take k)) ∧
    (∃ out st, (on .signs).Yields start out (.ok z) st ∧ ∀ k ≤ out.length + 1,
      Accounts (on .signs) start Signs.Merges 1 (ts ++ [z]) k ((out ++ [z]).take k)) ∧
    ∃ out st, (on .commands).Yields start out (.ok z) st ∧ ∀ k ≤ out.length + 1, 1 ≤ k →
      ((on .commands).after k start).2.readings = min (k + 2) (ts.length + 1) := by
  intro on start
  have hs := Counted.yields h 0
  refine ⟨⟨_, _, yields_rewrite hs, fun k hk => ?_⟩, ⟨_, _, yields_rewrite hs, fun k hk => ?_⟩,
    _, _, yields_rewrite hs, fun k hk hpulled => ?_⟩
  · refine accounts rfl (fun _ t ts => ?_) Operators.Rule.alone Operators.ahead_le h hk
    obtain ⟨r, hr, hmerges⟩ := Operators.takes_deliver t ts
    exact ⟨r, hr, hmerges.rule⟩
  · exact accounts rfl Signs.takes_deliver Signs.Merges.alone Signs.ahead_le h hk
  · have hlength : (Layer.commands.rewrite ts).length = ts.length :=
      Commands.length_rewriteFrom none ts
    rcases Nat.lt_or_eq_of_le hk with hk | rfl
    · obtain ⟨m, r, rest, hstage⟩ := Layer.commands.exists_stage ts z (Nat.le_of_lt_succ hk)
      have hafter := hstage.after_eq hs.hands h.ne_eof h.ends
      rw [Counted.after_mk, Nat.zero_add] at hafter
      rw [show (on .commands).after k start = _ from hafter]
      exact Commands.readings_eq h.ne_eof h.ends hpulled hstage
    · have hafter := Layer.commands.after_length_succ hs.hands h.ne_eof h.ends
      rw [Counted.after_mk, Nat.zero_add] at hafter
      rw [show (on .commands).after _ start = _ from hafter, hlength]
      exact (Nat.min_eq_right (Nat.le_add_right _ 2)).symm

/-- The tokens of `pred / x = - - 7 a : run`. The layer of operators gives two tokens back
    behind `pred`, the layer of signs one behind the first minus sign, and the layer of
    commands has read everything but the end token when it hands out the command. -/
theorem buffers_bounded_of_each_sort :
    let t (kind : TokenKind) (payload : Option Payload) (column : Nat) : Token :=
      ⟨kind, payload, .point none ⟨1, column⟩⟩
    let x := t .ident (some (.label "x")) 3
    let minus := t .minus none
    let ts := [t (.keyword .pred) none 1, t .slash none 2, x, t (.relation .equal) none 4, minus 5,
      minus 6, t .number (some (.number 7)) 7, t .ident (some (.label "a")) 8, t .colon none 9,
      t (.keyword .run) none 10]
    let z := t .eof none 11
    let start : Memory × Counted TokenList := (Memory.empty, Counted.fresh ⟨ts, z.span⟩)
    let on (l : Layer) := l.atop (Counted.source (TokenList.source Error))
    (TokenList.source Error).Yields ⟨ts, z.span⟩ ts (.ok z) ⟨[], z.span⟩ ∧
      (∃ consumed, MergedBy Operators.Rule consumed (ts.take 1) ∧
        ts.take 3 = consumed ++ [t .slash none 2, x]) ∧
      (∃ consumed, MergedBy Signs.Merges consumed (ts.take 5) ∧ ts.take 6 = consumed ++ [minus 6]) ∧
      ((on .commands).after 8 start).2.readings = 10 := by
  intro t x minus ts z start on
  have h : (TokenList.source Error).Yields ⟨ts, z.span⟩ ts (.ok z) ⟨[], z.span⟩ := by
    repeat
      refine .next rfl nofun ?_
    exact .done rfl rfl
  obtain ⟨⟨out, _, hrun, hoperators⟩, ⟨out', _, hrun', hsigns⟩, out'', _, hrun'', hcommands⟩ :=
    buffers_bounded h
  have hout : (on .operators).collect start = .ok ts := by decide +kernel
  obtain rfl := Except.ok.inj (hrun.collect_eq.symm.trans hout)
  have hout' : (on .signs).collect start = .ok
      (ts.take 5 ++ ⟨.number, some (.number (-7)), ⟨none, ⟨1, 6⟩, ⟨1, 7⟩⟩⟩ :: ts.drop 7) := by
    decide +kernel
  obtain rfl := Except.ok.inj (hrun'.collect_eq.symm.trans hout')
  have hout'' : (on .commands).collect start = .ok (ts.take 7 ++
      [t (.keyword .run) (some (.label "a")) 10, t .dot none 9, ts[7]]) := by
    decide +kernel
  obtain rfl := Except.ok.inj (hrun''.collect_eq.symm.trans hout'')
  have hoperators : Accounts (on .operators) start Operators.Rule 2 (ts ++ [z]) 1 (ts.take 1) :=
    hoperators 1 (by decide)
  have hsigns : Accounts (on .signs) start Signs.Merges 1 (ts ++ [z]) 5 (ts.take 5) :=
    hsigns 5 (by decide)
  have hmemory : ((on .operators).after 1 start).2.readings = 3 ∧
      ((on .operators).after 1 start).1.pending = [t .slash none 2, x] := by decide +kernel
  have hmemory' : ((on .signs).after 5 start).2.readings = 6 ∧
      ((on .signs).after 5 start).1.pending = [minus 6] := by decide +kernel
  have hlossless := hoperators.lossless
  have hlossless' := hsigns.lossless
  rw [hmemory.1, hmemory.2] at hlossless
  rw [hmemory'.1, hmemory'.2] at hlossless'
  exact ⟨h, hlossless, hlossless', hcommands 8 (by decide) (by decide)⟩

end Layer

end AlloyLexical

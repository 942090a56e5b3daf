import AlloyLexical.Proofs.Layer.Rewriting
import AlloyLexical.Proofs.Source.Readings

/-!
# The course of a layer

What a layer hands out does not depend on how far it has read ahead; this is about how far
it has. It looks at the tokens behind the one in hand up to the first that settles the
matter (`Outlook.reach`, `Layer.ahead`), or as far as its memory goes if that is further
(`Layer.sight`). It reads what of these tokens is not in its memory, and no more
(`Layer.pull_eq`).

So the course of a layer is known from the tokens of its source alone, delivery by delivery:
`Layer.Stage` says what the layer has in its memory, how often it has read its source and
what is left to rewrite.

* The tokens in its memory and those that it has not read yet are those left to rewrite, and
  the end token (`Stage.pending_append`);
* the layer does get there by pulling (`Stage.after_eq`), and to every stage up to its last
  delivery (`exists_stage`), from where on it is at its end (`after_length_succ`).
-/

namespace AlloyLexical

/-- Where one list is cut at two places, what there is between the first and the second. -/
theorem drop_of_append_eq {pending us seen unseen : List Token}
    (h : pending ++ us = seen ++ unseen) (hle : pending.length ≤ seen.length) :
    us.drop (seen.length - pending.length) = unseen := by
  have hdrop := congrArg (List.drop seen.length) h
  rwa [List.drop_append, List.drop_of_length_le hle, List.nil_append, List.drop_left] at hdrop

/-! ## How far to look -/

namespace Outlook

/-- The number of tokens at the head of a list that settle the matter; that of all of them,
    if they do not. -/
def reach (q : Outlook) : List Token → Nat
  | [] => 0
  | t :: ts =>
    match q.advance t.kind with
    | none => 1
    | some q' => q'.reach ts + 1

variable {q q' : Outlook} {t : Token} {ts : List Token}

theorem reach_cons_of_none (h : q.advance t.kind = none) (ts : List Token) :
    q.reach (t :: ts) = 1 := by
  simp only [reach, h]

theorem reach_cons_of_some (h : q.advance t.kind = some q') (ts : List Token) :
    q.reach (t :: ts) = q'.reach ts + 1 := by
  simp only [reach, h]

theorem reach_le_length (q : Outlook) (ts : List Token) : q.reach ts ≤ ts.length := by
  fun_induction reach q ts with
  | case1 => exact Nat.le_refl _
  | case2 => exact Nat.succ_le_succ (Nat.zero_le _)
  | case3 q t ts q' hq ih => exact Nat.succ_le_succ ih

/-- Where the matter gets settled, the first tokens settle it that are as many. -/
theorem through_take_eq_none_iff (h : q.through ts = none) {m : Nat} :
    q.through (ts.take m) = none ↔ q.reach ts ≤ m := by
  fun_induction reach q ts generalizing m with
  | case1 => cases h
  | case2 q t ts hq =>
    rcases m with _ | m
    · exact ⟨nofun, nofun⟩
    · rw [List.take_succ_cons, through_cons, hq]
      exact iff_of_true rfl (Nat.succ_le_succ (Nat.zero_le m))
  | case3 q t ts q' hq ih =>
    rcases m with _ | m
    · exact ⟨nofun, nofun⟩
    · rw [through_cons, hq, Option.bind_some] at h
      rw [List.take_succ_cons, through_cons, hq, Option.bind_some, ih h, Nat.succ_le_succ_iff]

theorem reach_append (h : q.through ts = some q') (us : List Token) :
    q.reach (ts ++ us) = ts.length + q'.reach us := by
  induction ts generalizing q with
  | nil =>
    cases h
    exact (Nat.zero_add _).symm
  | cons t ts ih =>
    rw [through_cons] at h
    obtain ⟨q₁, hq₁, h⟩ := Option.bind_eq_some_iff.1 h
    rw [List.cons_append, reach_cons_of_some hq₁, ih h, List.length_cons, Nat.add_right_comm]

/-- Looking ahead into a source is reading it that often. -/
theorem read_of_hands {ε σ : Type} {S : Source ε σ} {s : σ} (hs : S.Hands s ts)
    (h : q.through ts = none) :
    q.read S s = ⟨ts.take (q.reach ts), none, S.after (q.reach ts) s⟩ := by
  induction ts generalizing q s with
  | nil => cases h
  | cons t ts ih =>
    obtain ⟨hfinishes, hread, hrest⟩ := hs
    obtain ⟨s', hs'⟩ : ∃ s', S.read s = (.ok t, s') := ⟨_, Prod.ext hread rfl⟩
    rw [hs'] at hrest
    rw [through_cons] at h
    rcases hq : q.advance t.kind with _ | q'
    · rw [read_of_none hs' hq, reach_cons_of_none hq, S.after_succ, hs']
      rfl
    · rw [hq, Option.bind_some] at h
      rw [read_of_some hfinishes hs' hq, reach_cons_of_some hq, S.after_succ, hs', ih hrest h]
      rfl

end Outlook

namespace Layer

variable {σ : Type} {S : Source Error σ} {s s' : σ}

/-- How many of the tokens behind the one in hand the layer looks at. -/
def ahead (l : Layer) (last : Option TokenKind) (t : Token) (ts : List Token) : Nat :=
  match l.outlook last t with
  | none => 0
  | some q => q.reach ts

theorem ahead_le_length (l : Layer) (last : Option TokenKind) (t : Token) (ts : List Token) :
    l.ahead last t ts ≤ ts.length := by
  rw [ahead]
  split
  · exact Nat.zero_le _
  · exact Outlook.reach_le_length _ ts

theorem awaits_take_eq_none_iff {l : Layer} {last : Option TokenKind} {t : Token}
    {ts : List Token} (h : l.awaits last t ts = none) {m : Nat} :
    l.awaits last t (ts.take m) = none ↔ l.ahead last t ts ≤ m := by
  rw [awaits] at h ⊢
  rw [ahead]
  rcases hq : l.outlook last t with _ | q
  · exact iff_of_true rfl (Nat.zero_le m)
  · rw [hq, Option.bind_some] at h
    exact Outlook.through_take_eq_none_iff h

/-- Of the tokens behind the one in hand, those that a layer has seen when it delivers: it
    looks at some, and of some it knows from its memory. -/
def sight (l : Layer) (m : Memory) (t : Token) (ts : List Token) : List Token :=
  ts.take (max (m.pending.length - 1) (l.ahead m.last t ts))

theorem length_sight {l : Layer} {m : Memory} {t : Token} {ts : List Token}
    (h : m.pending.length ≤ ts.length + 1) :
    (l.sight m t ts).length = max (m.pending.length - 1) (l.ahead m.last t ts) := by
  have hahead := l.ahead_le_length m.last t ts
  rw [sight, List.length_take, Nat.min_eq_left]
  omega

theorem awaits_sight {l : Layer} {m : Memory} {t : Token} {ts : List Token}
    (h : l.awaits m.last t ts = none) : l.awaits m.last t (l.sight m t ts) = none :=
  (awaits_take_eq_none_iff h).2 (Nat.le_max_right _ _)

/-! ## One pull -/

/-- With a token in hand and the tokens `ts` behind it, a layer reads what it has to see of
    the tokens `us` that its source hands out. -/
theorem settle_eq {l : Layer} {last : Option TokenKind} {t : Token} {ts us : List Token}
    (hs : S.Hands s us) (h : l.awaits last t (ts ++ us) = none) :
    l.settle S last t ts s =
      l.release last t ((ts ++ us).take (max ts.length (l.ahead last t (ts ++ us))))
        (S.after (max ts.length (l.ahead last t (ts ++ us)) - ts.length) s) := by
  rw [settle, ← awaits]
  rcases hq : l.awaits last t ts with _ | q
  · -- There is nothing to read.
    have hle : l.ahead last t (ts ++ us) ≤ ts.length := by
      rwa [← awaits_take_eq_none_iff h, List.take_left]
    rw [Nat.max_eq_left hle, List.take_left, Nat.sub_self]
    rfl
  · rw [awaits_append, hq, Option.bind_some] at h
    obtain ⟨q₀, hq₀, hthrough⟩ := Option.bind_eq_some_iff.1 hq
    have hahead : l.ahead last t (ts ++ us) = ts.length + q.reach us := by
      rw [ahead, hq₀]
      exact Outlook.reach_append hthrough us
    simp only [Outlook.read_of_hands hs h]
    rw [hahead, Nat.max_eq_right (Nat.le_add_right _ _), List.take_length_add_append,
      Nat.add_sub_cancel_left]

/-- A pull of a layer that has a token in its memory or before it in its source. -/
theorem pull_eq {l : Layer} {m : Memory} {t : Token} {ts us : List Token} (hs : S.Hands s us)
    (hts : m.pending ++ us = t :: ts) (h : l.awaits m.last t ts = none) :
    l.pull S m s = l.release m.last t (l.sight m t ts)
      (S.after ((l.sight m t ts).length + 1 - m.pending.length) s) := by
  have hlength : m.pending.length ≤ ts.length + 1 := by
    have hlength := congrArg List.length hts
    rw [List.length_append, List.length_cons] at hlength
    omega
  rw [length_sight hlength, sight]
  obtain ⟨last, _ | ⟨u, pending⟩⟩ := m
  · -- The token in hand is the first one read.
    obtain rfl : us = t :: ts := hts
    obtain ⟨-, hread, hrest⟩ := hs
    obtain ⟨s', hs'⟩ : ∃ s', S.read s = (.ok t, s') := ⟨_, Prod.ext hread rfl⟩
    rw [hs'] at hrest
    have hsettle := settle_eq hrest ((congrArg _ (List.nil_append ts)).trans h)
    simp only [pull, hs']
    rw [hsettle]
    simp only [List.length_nil, List.nil_append, Nat.zero_le, Nat.max_eq_right, Nat.sub_zero,
      Nat.zero_sub, S.after_succ, hs']
  · obtain ⟨rfl, rfl⟩ := List.cons.inj hts
    simp only [pull, List.length_cons, Nat.add_sub_cancel, Nat.add_sub_add_right]
    exact settle_eq hs h

/-! ## Stages -/

/-- The stages of a layer on a source of the tokens `ts` and the end token `z`: after so many
    deliveries, what it has in its memory, how often it has read its source and which tokens
    are left to rewrite. -/
inductive Stage (l : Layer) (ts : List Token) (z : Token) :
    Nat → Memory → Nat → List Token → Prop
  | start : Stage l ts z 0 Memory.empty 0 ts
  | next {k : Nat} {m : Memory} {r : Nat} {t : Token} {rest : List Token} :
    Stage l ts z k m r (t :: rest) →
    Stage l ts z (k + 1)
      ⟨some (l.deliver m.last t rest).1.kind, (l.deliver m.last t (l.sight m t (rest ++ [z]))).2⟩
      (r + ((l.sight m t (rest ++ [z])).length + 1 - m.pending.length))
      (l.deliver m.last t rest).2

/-- What has been seen decides what is delivered, and the end token has no part in it. -/
theorem deliver_sight (l : Layer) (m : Memory) (t : Token) (rest : List Token) {z : Token}
    (hz : z.kind = .eof) :
    ∃ unseen, rest ++ [z] = l.sight m t (rest ++ [z]) ++ unseen ∧
      (l.deliver m.last t (l.sight m t (rest ++ [z]))).1 = (l.deliver m.last t rest).1 ∧
      (l.deliver m.last t (l.sight m t (rest ++ [z]))).2 ++ unseen =
        (l.deliver m.last t rest).2 ++ [z] := by
  obtain ⟨unseen, hunseen⟩ : l.sight m t (rest ++ [z]) <+: rest ++ [z] := List.take_prefix _ _
  have hseen := l.deliver_append unseen (awaits_sight (l.awaits_append_eof m.last t rest hz))
  rw [hunseen, l.deliver_append_eof m.last t rest hz] at hseen
  exact ⟨unseen, hunseen.symm, Prod.mk.inj hseen.symm⟩

section

variable {l : Layer} {ts rest : List Token} {z : Token} {k r : Nat} {m : Memory}

theorem Stage.ne_eof (hts : ∀ t ∈ ts, t.kind ≠ .eof) (h : l.Stage ts z k m r rest) :
    ∀ t ∈ rest, t.kind ≠ .eof := by
  induction h with
  | start => exact hts
  | next _ ih => exact (List.forall_mem_cons.1 (l.deliver_ne_eof _ ih)).2

/-- The tokens in the memory and those that have not been read yet. -/
theorem Stage.pending_append (hz : z.kind = .eof) (h : l.Stage ts z k m r rest) :
    r ≤ ts.length + 1 ∧ m.pending ++ (ts ++ [z]).drop r = rest ++ [z] := by
  induction h with
  | start => exact ⟨Nat.zero_le _, rfl⟩
  | @next k m r t rest _ ih =>
    obtain ⟨hr, hpending⟩ := ih
    obtain ⟨unseen, hunseen, -, hdeliver⟩ := l.deliver_sight m t rest hz
    have hsplit : m.pending ++ (ts ++ [z]).drop r = t :: l.sight m t (rest ++ [z]) ++ unseen :=
      hpending.trans (congrArg (t :: ·) hunseen)
    have hlength := congrArg List.length hpending
    have hread := congrArg List.length hsplit
    simp only [List.length_append, List.length_drop, List.length_cons, List.length_nil]
      at hlength hread
    have hsight : m.pending.length ≤ (t :: l.sight m t (rest ++ [z])).length := by
      have hseen : (l.sight m t (rest ++ [z])).length = _ := length_sight (by
        rw [List.length_append, List.length_singleton]
        omega)
      rw [List.length_cons]
      omega
    refine ⟨by omega, ?_⟩
    -- What is read now is what is seen and not in the memory.
    rw [← List.drop_drop, ← List.length_cons, drop_of_append_eq hsplit hsight]
    exact hdeliver

/-- What the layer has read is what it has handed on or has in its memory. -/
theorem Stage.readings_add (hz : z.kind = .eof) (h : l.Stage ts z k m r rest) :
    r + rest.length = ts.length + m.pending.length := by
  obtain ⟨hr, hpending⟩ := h.pending_append hz
  have hlength := congrArg List.length hpending
  simp only [List.length_append, List.length_drop, List.length_singleton] at hlength
  omega

/-- Pulling leads from stage to stage. -/
theorem Stage.after_eq (hs : S.Hands s (ts ++ [z])) (hts : ∀ t ∈ ts, t.kind ≠ .eof)
    (hz : z.kind = .eof) (h : l.Stage ts z k m r rest) :
    (l.atop S).after k (Memory.empty, s) = (m, S.after r s) := by
  induction h with
  | start => rfl
  | @next k m r t rest h ih =>
    obtain ⟨-, -, hfst, -⟩ := l.deliver_sight m t rest hz
    have ht : t.kind ≠ .eof := h.ne_eof hts t List.mem_cons_self
    have hpending : m.pending ++ (ts ++ [z]).drop r = t :: (rest ++ [z]) :=
      (h.pending_append hz).2
    have hpull := pull_eq (hs.drop r) hpending (l.awaits_append_eof m.last t rest hz)
    rw [(l.atop S).after_add, ih, S.after_add]
    refine (congrArg Prod.snd hpull).trans ?_
    simp only [release, hfst, ht, and_false, if_false]

theorem Stage.rewriteFrom_eq (h : l.Stage ts z k m r rest) :
    l.rewriteFrom m.last rest = (l.rewrite ts).drop k := by
  induction h with
  | start => rfl
  | @next k m r t rest _ ih =>
    rw [rewriteFrom_cons] at ih
    rw [← List.drop_drop, ← ih]
    rfl

/-- Each delivery leads to a stage. -/
theorem exists_stage (l : Layer) (ts : List Token) (z : Token) (hk : k ≤ (l.rewrite ts).length) :
    ∃ m r rest, l.Stage ts z k m r rest := by
  induction k with
  | zero => exact ⟨_, _, _, .start⟩
  | succ k ih =>
    obtain ⟨m, r, rest, h⟩ := ih (Nat.le_of_succ_le hk)
    rcases rest with _ | ⟨t, rest⟩
    · -- There are no deliveries left.
      have hdrop := h.rewriteFrom_eq
      rw [rewriteFrom_nil] at hdrop
      exact absurd (List.drop_eq_nil_iff.1 hdrop.symm) (Nat.not_le_of_lt hk)
    · exact ⟨_, _, _, h.next⟩

/-- After its last delivery, a pull leads the layer to its end, where it has read its source
    up to the end token. -/
theorem after_length_succ (hs : S.Hands s (ts ++ [z])) (hts : ∀ t ∈ ts, t.kind ≠ .eof)
    (hz : z.kind = .eof) (l : Layer) :
    (l.atop S).after ((l.rewrite ts).length + 1) (Memory.empty, s) =
      (l.endMemory z, S.after (ts.length + 1) s) := by
  obtain ⟨m, r, rest, h⟩ := l.exists_stage ts z (Nat.le_refl _)
  obtain ⟨hr, hpending⟩ := h.pending_append hz
  obtain rfl : rest = [] := by
    have hrest := h.rewriteFrom_eq
    rw [List.drop_length] at hrest
    rcases rest with _ | ⟨t, rest⟩
    · rfl
    · rw [rewriteFrom_cons] at hrest
      cases hrest
  -- The end token is in the memory or next in the source.
  have hawaits : l.awaits m.last z [] = none := by
    rw [awaits, l.outlook_of_eof _ hz]
    rfl
  have hpull := pull_eq (hs.drop r) hpending hawaits
  have hlength := congrArg List.length hpending
  simp only [List.length_append, List.length_drop, List.length_nil, List.length_singleton]
    at hlength
  have hread : r + (0 + 1 - m.pending.length) = ts.length + 1 := by omega
  rw [(l.atop S).after_add, h.after_eq hs hts hz]
  refine (congrArg Prod.snd hpull).trans ?_
  simp only [sight, List.take_nil, List.length_nil, release, l.deliver_of_eof m.last [] hz, hz,
    and_true, ← S.after_add, hread]
  rfl

end

end Layer

end AlloyLexical

import AlloyLexical.Proofs.Layer.Delivery
import AlloyLexical.Proofs.Layer.Lookahead
import AlloyLexical.Proofs.Source.Yields
import AlloyLexical.Stack

/-!
# Layers as rewritings of lists

What a layer hands out depends on the tokens of its source alone, and not on how
far it has read ahead at any time: it is the *rewriting* of these tokens,
`Layer.rewrite`, which delivers one token after the other with all others at
hand.

The invariant behind this is `Layer.Holds`. The tokens a layer has still to
rewrite are those in its memory and, behind them, those that its source yields;
once the memory holds the end token, the source has nothing to add. A pull takes
one delivery off these tokens (`Layer.pull_of_holds`), as the matter was settled
before the layer stopped looking ahead. It follows by induction

* that a layer on a source that yields tokens and an end token yields their
  rewriting and the same end token (`Layer.yields_rewrite`);
* that a layer on a source that fails hands out the beginning of what it would
  hand out if the source went on, and reports the failure
  (`Layer.yields_error`).

Both carry over to stacks (`Stack.yields_ended`, `Stack.yields_error`): a stack
rewrites by its layers in turn, from the bottom up.
-/

namespace AlloyLexical

namespace Layer

/-! ## Rewriting a list -/

/-- The tokens a layer makes of a list, if the last one before them had the kind
    `last`. -/
def rewriteFrom (l : Layer) (last : Option TokenKind) : List Token → List Token
  | [] => []
  | t :: ts =>
    have := l.length_deliver_le last t ts
    (l.deliver last t ts).1 ::
      l.rewriteFrom (some (l.deliver last t ts).1.kind) (l.deliver last t ts).2
termination_by ts => ts.length

/-- The tokens a layer makes of a list. -/
def rewrite (l : Layer) (ts : List Token) : List Token := l.rewriteFrom none ts

@[simp] theorem rewriteFrom_nil (l : Layer) (last : Option TokenKind) :
    l.rewriteFrom last [] = [] := by
  rw [rewriteFrom]

theorem rewriteFrom_cons (l : Layer) (last : Option TokenKind) (t : Token) (ts : List Token) :
    l.rewriteFrom last (t :: ts) =
      (l.deliver last t ts).1 ::
        l.rewriteFrom (some (l.deliver last t ts).1.kind) (l.deliver last t ts).2 := by
  rw [rewriteFrom]

end Layer

/-! ## Looking ahead into a source -/

theorem Outlook.read_of_yields {ε σ : Type} {S : Source ε σ} {s s'' : σ} {ts : List Token}
    {a : Except ε Token} (h : S.Yields s ts a s'') (q : Outlook) :
    (∃ us vs s', ts = us ++ vs ∧ q.through us = none ∧ q.read S s = ⟨us, none, s'⟩ ∧
      S.Yields s' vs a s'') ∨
    q.read S s = match a with
      | .error e => ⟨ts, some e, s''⟩
      | .ok z => ⟨ts ++ [z], none, s''⟩ := by
  induction h generalizing q with
  | @done s s' a hread ha =>
    right
    rcases a with e | z
    · exact read_of_error hread q
    · exact read_of_none hread (by rw [show z.kind = .eof from ha, advance_eof])
  | @next s s' s'' t ts a hread ht hts ih =>
    rcases hq : q.advance t.kind with _ | q'
    · -- The first token settles it.
      left
      exact ⟨[t], ts, s', rfl, by rw [through_cons, hq]; rfl, read_of_none hread hq, hts⟩
    · -- It leads on to the outlook `q'` from the second token.
      rw [read_of_some (.next hread ht hts.finishes) hread hq]
      rcases ih q' with ⟨us, vs, s₁, rfl, hus, hread', hvs⟩ | hread'
      · left
        refine ⟨t :: us, vs, s₁, rfl, ?_, ?_, hvs⟩
        · rw [through_cons, hq]
          exact hus
        · rw [hread']
      · right
        rw [hread']
        rcases a with e | z <;> rfl

namespace Layer

variable {σ : Type} {S : Source Error σ} {a : Except Error Token} {s s' s'' : σ}

/-! ## One pull -/

/-- A layer with the given tokens in its memory, on a source in state `s`, has
    the tokens `ts` to rewrite before its source gives the answer `a` and is
    left in `s''`. -/
inductive Holds (S : Source Error σ) (a : Except Error Token) (s'' : σ) :
    List Token → σ → List Token → Prop
  | reading {pending : List Token} {s : σ} {ts : List Token} :
    (∀ t ∈ pending, t.kind ≠ .eof) → S.Yields s ts a s'' → Holds S a s'' pending s (pending ++ ts)
  | ended {z : Token} {ts : List Token} : a = .ok z → (∀ t ∈ ts, t.kind ≠ .eof) →
    Holds S a s'' (ts ++ [z]) s'' ts

theorem Holds.of_yields {ts : List Token} (h : S.Yields s ts a s'') : Holds S a s'' [] s ts :=
  .reading (List.forall_mem_nil _) h

/-- What a layer with the token `t` in hand does, if there are the tokens `ts`
    behind it: it delivers a token as if it saw them all, and still holds what
    is left then; or else it reports the failure of its source. In front of a
    failure it has seen enough for the delivery not to depend on it. -/
def PullsFrom (S : Source Error σ) (a : Except Error Token) (s'' : σ) (l : Layer)
    (last : Option TokenKind) (t : Token) (ts : List Token)
    (answer : Except Error Token × Memory × σ) : Prop :=
  (∃ pending s,
    answer = (.ok (l.deliver last t ts).1, ⟨some (l.deliver last t ts).1.kind, pending⟩, s) ∧
    Holds S a s'' pending s (l.deliver last t ts).2 ∧
    ∀ e, a = .error e → ∀ us, l.deliver last t (ts ++ us) = extend (l.deliver last t ts) us) ∨
  ∃ e m, a = .error e ∧ answer = (.error (l.report e), m, s'')

/-- A token is released as soon as the matter is settled. -/
theorem pullsFrom_release {l : Layer} {last : Option TokenKind} {t : Token} {ts us : List Token}
    (hne : ∀ u ∈ t :: ts, u.kind ≠ .eof) (hsettled : l.awaits last t ts = none)
    (h : S.Yields s us a s'') :
    PullsFrom S a s'' l last t (ts ++ us) (l.release last t ts s) := by
  left
  have ht : t.kind ≠ .eof := (List.forall_mem_cons.1 hne).1
  refine ⟨(l.deliver last t ts).2, s, ?_, ?_, fun e _ vs => ?_⟩
  · rw [deliver_append us hsettled]
    simp [release, extend, ht]
  · rw [deliver_append us hsettled]
    exact .reading (List.forall_mem_cons.1 (l.deliver_ne_eof last hne)).2 h
  · rw [List.append_assoc, deliver_append _ hsettled, deliver_append us hsettled, extend, extend,
      extend, List.append_assoc]

/-- An end token behind the others settles the matter as well. -/
theorem pullsFrom_release_eof {l : Layer} {last : Option TokenKind} {t z : Token}
    {ts : List Token} (hne : ∀ u ∈ t :: ts, u.kind ≠ .eof) (hz : z.kind = .eof) :
    PullsFrom S (.ok z) s'' l last t ts (l.release last t (ts ++ [z]) s'') := by
  left
  have ht : t.kind ≠ .eof := (List.forall_mem_cons.1 hne).1
  refine ⟨(l.deliver last t ts).2 ++ [z], s'', ?_, ?_, nofun⟩
  · simp [release, l.deliver_append_eof last t ts hz, extend, ht]
  · exact .ended rfl (List.forall_mem_cons.1 (l.deliver_ne_eof last hne)).2

/-- With a token in hand and some behind it, a layer reads its source until the
    matter is settled. -/
theorem pullsFrom_settle {l : Layer} {last : Option TokenKind} {t : Token} {ts us : List Token}
    (hne : ∀ u ∈ t :: ts, u.kind ≠ .eof) (h : S.Yields s us a s'') :
    PullsFrom S a s'' l last t (ts ++ us) (l.settle S last t ts s) := by
  have hne' : ∀ vs, (∀ u ∈ vs, u.kind ≠ .eof) → ∀ u ∈ t :: (ts ++ vs), u.kind ≠ .eof :=
    fun vs hvs => List.forall_mem_append.2 ⟨hne, hvs⟩
  rw [settle, ← awaits]
  rcases hq : l.awaits last t ts with _ | q
  · exact pullsFrom_release hne hq h
  · rcases Outlook.read_of_yields h q with ⟨vs, ws, s', rfl, hvs, hread, hws⟩ | hread
    · -- The tokens `vs` settle the matter.
      simp only [hread]
      rw [← List.append_assoc]
      refine pullsFrom_release (hne' vs (List.forall_mem_append.1 h.ne_eof).1) ?_ hws
      rw [awaits_append, hq]
      exact hvs
    · -- There are no others to settle it.
      simp only [hread]
      rcases a with e | z
      · exact .inr ⟨e, _, rfl, rfl⟩
      · show PullsFrom S (.ok z) s'' l last t (ts ++ us) (l.release last t (ts ++ (us ++ [z])) s'')
        rw [← List.append_assoc ts us [z]]
        exact pullsFrom_release_eof (hne' us h.ne_eof) h.ends

/-- A pull of a layer that holds a token. -/
theorem pull_of_holds {l : Layer} {m : Memory} {t : Token} {ts : List Token}
    (h : Holds S a s'' m.pending s (t :: ts)) (ha : Source.Ends a) :
    PullsFrom S a s'' l m.last t ts (l.pull S m s) := by
  obtain ⟨last, pending⟩ := m
  generalize hts : t :: ts = us at h
  rcases h with @⟨_, _, us, hpending, hus⟩ | @⟨z, us, rfl, hus⟩
  · rcases pending with _ | ⟨u, pending⟩
    · -- The token in hand is the first one read.
      obtain rfl : t :: ts = us := hts
      rcases hus with _ | ⟨hread, ht, hus⟩
      simp only [pull, hread]
      rw [← List.nil_append ts]
      exact pullsFrom_settle (by simpa using ht) hus
    · obtain ⟨rfl, rfl⟩ := List.cons.inj hts
      exact pullsFrom_settle hpending hus
  · -- The end token is the last one in the memory.
    obtain rfl : t :: ts = us := hts
    show PullsFrom S (.ok z) s l last t ts (l.settle S last t (ts ++ [z]) s)
    rw [settle, ← awaits, l.awaits_append_eof last t ts ha]
    exact pullsFrom_release_eof hus ha

/-- What a layer remembers after an end token. -/
def endMemory (l : Layer) (z : Token) : Memory := ⟨some .eof, if l.keepsEnd then [z] else []⟩

/-- An end token in hand is handed out. -/
theorem settle_of_eof (l : Layer) (last : Option TokenKind) {z : Token} (s : σ)
    (hz : z.kind = .eof) : l.settle S last z [] s = (.ok z, l.endMemory z, s) := by
  rw [settle, l.outlook_of_eof last hz]
  simp [release, l.deliver_of_eof last [] hz, endMemory, hz]

/-- A layer that holds no token hands out the end token of its source, or reports
    the failure. -/
theorem pull_of_holds_nil {l : Layer} {m : Memory} (h : Holds S a s'' m.pending s [])
    (ha : Source.Ends a) :
    ∃ m', l.pull S m s = (a.mapError l.report, m', s'') ∧ ∀ z, a = .ok z → m' = l.endMemory z := by
  obtain ⟨last, pending⟩ := m
  generalize hts : [] = us at h
  rcases h with @⟨_, _, us, hpending, hus⟩ | @⟨z, us, rfl, hus⟩
  · obtain ⟨rfl, rfl⟩ := List.append_eq_nil_iff.1 hts.symm
    rcases hus with ⟨hread, -⟩ | _
    rcases a with e | z
    · refine ⟨⟨last, []⟩, ?_, fun _ hz => by cases hz⟩
      simp only [pull, hread]
      rfl
    · refine ⟨l.endMemory z, ?_, ?_⟩
      · simp only [pull, hread]
        exact l.settle_of_eof last s'' ha
      · rintro _ ⟨⟩
        rfl
  · subst hts
    refine ⟨l.endMemory z, l.settle_of_eof last s ha, ?_⟩
    rintro _ ⟨⟩
    rfl

/-! ## Pulling to the end -/

/-- A layer hands out the rewriting of the tokens it holds, and then the end
    token of its source. -/
theorem yields_of_holds {l : Layer} {last : Option TokenKind} {z : Token} (hz : z.kind = .eof)
    {pending ts : List Token} (h : Holds S (.ok z) s'' pending s ts)
    (hne : ∀ t ∈ ts, t.kind ≠ .eof) :
    (l.atop S).Yields (⟨last, pending⟩, s) (l.rewriteFrom last ts) (.ok z)
      (l.endMemory z, s'') := by
  fun_induction l.rewriteFrom last ts generalizing pending s with
  | case1 last =>
    obtain ⟨m', hpull, hm'⟩ := pull_of_holds_nil (l := l) (m := ⟨last, pending⟩) h hz
    obtain rfl := hm' z rfl
    exact .done hpull hz
  | case2 last t ts _ ih =>
    have hdeliver := List.forall_mem_cons.1 (l.deliver_ne_eof last hne)
    rcases pull_of_holds (l := l) (m := ⟨last, pending⟩) h hz with
      ⟨pending', s', hpull, hrest, -⟩ | ⟨e, _, he, -⟩
    · exact .next hpull hdeliver.1 (ih hrest hdeliver.2)
    · cases he

/-- If the source of a layer fails, the layer reports that. What it has handed
    out by then does not depend on how its source might have gone on. -/
theorem yields_of_holds_error {l : Layer} {last : Option TokenKind} {e : Error}
    {pending ts : List Token} (h : Holds S (.error e) s'' pending s ts)
    (hne : ∀ t ∈ ts, t.kind ≠ .eof) :
    ∃ us m, (l.atop S).Yields (⟨last, pending⟩, s) us (.error (l.report e)) (m, s'') ∧
      ∀ vs, us <+: l.rewriteFrom last (ts ++ vs) := by
  fun_induction l.rewriteFrom last ts generalizing pending s with
  | case1 last =>
    obtain ⟨m', hpull, -⟩ := pull_of_holds_nil (l := l) (m := ⟨last, pending⟩) h trivial
    exact ⟨[], m', .done hpull trivial, fun _ => List.nil_prefix⟩
  | case2 last t ts _ ih =>
    have hdeliver := List.forall_mem_cons.1 (l.deliver_ne_eof last hne)
    rcases pull_of_holds (l := l) (m := ⟨last, pending⟩) h trivial with
      ⟨pending', s', hpull, hrest, hstable⟩ | ⟨e', m', he, hpull⟩
    · obtain ⟨us, m', hus, hprefix⟩ := ih hrest hdeliver.2
      refine ⟨_, m', .next hpull hdeliver.1 hus, fun vs => ?_⟩
      rw [List.cons_append, rewriteFrom_cons, hstable e rfl vs]
      exact List.cons_prefix_cons.2 ⟨rfl, hprefix vs⟩
    · cases he
      exact ⟨[], m', .done hpull trivial, fun _ => List.nil_prefix⟩

/-- A layer on a source that yields tokens and an end token yields the rewriting
    of the tokens and the same end token. -/
theorem yields_rewrite {l : Layer} {ts : List Token} {z : Token}
    (h : S.Yields s ts (.ok z) s'') :
    (l.atop S).Yields (Memory.empty, s) (l.rewrite ts) (.ok z) (l.endMemory z, s'') :=
  yields_of_holds h.ends (.of_yields h) h.ne_eof

/-- A layer on a source that fails reports the failure, after the beginning of
    what it makes of the tokens before the failure and any others. -/
theorem yields_error {l : Layer} {ts : List Token} {e : Error}
    (h : S.Yields s ts (.error e) s'') :
    ∃ us m, (l.atop S).Yields (Memory.empty, s) us (.error (l.report e)) (m, s'') ∧
      ∀ vs, us <+: l.rewrite (ts ++ vs) :=
  yields_of_holds_error (.of_yields h) h.ne_eof

/-- A rewriting makes no end tokens. -/
theorem rewriteFrom_ne_eof {l : Layer} {last : Option TokenKind} {ts : List Token}
    (hne : ∀ t ∈ ts, t.kind ≠ .eof) : ∀ t ∈ l.rewriteFrom last ts, t.kind ≠ .eof := by
  fun_induction l.rewriteFrom last ts with
  | case1 => exact hne
  | case2 last t ts _ ih =>
    have hdeliver := List.forall_mem_cons.1 (l.deliver_ne_eof last hne)
    exact List.forall_mem_cons.2 ⟨hdeliver.1, ih hdeliver.2⟩

/-- A rewriting makes no more tokens than there were. -/
theorem length_rewriteFrom_le (l : Layer) (last : Option TokenKind) (ts : List Token) :
    (l.rewriteFrom last ts).length ≤ ts.length := by
  fun_induction l.rewriteFrom last ts with
  | case1 => exact Nat.le_refl _
  | case2 last t ts _ ih =>
    exact Nat.succ_le_succ (ih.trans (l.length_deliver_le last t ts))

end Layer

/-! ## Stacks -/

namespace Stack

variable {σ : Type} {S : Source Error σ} {s s'' : σ}

/-- The tokens that layers, given from the top down, make of a list one after
    the other. -/
def rewrite (ls : List Layer) (ts : List Token) : List Token := ls.foldr Layer.rewrite ts

theorem length_rewrite_le (ls : List Layer) (ts : List Token) :
    (rewrite ls ts).length ≤ ts.length := by
  induction ls with
  | nil => exact Nat.le_refl _
  | cons l ls ih => exact (l.length_rewriteFrom_le none _).trans ih

/-- How layers, given from the top down, report an error one after the other. -/
def report (ls : List Layer) (e : Error) : Error := ls.foldr Layer.report e

/-- The state of a stack that has handed out the end token `z` of its source. -/
def ended (z : Token) (s : σ) : (ls : List Layer) → Stack σ ls
  | [] => s
  | l :: ls => (l.endMemory z, ended z s ls)

@[simp] theorem base_ended (z : Token) (s : σ) (ls : List Layer) : (ended z s ls).base = s := by
  induction ls with
  | nil => rfl
  | cons l ls ih => exact ih

/-- A stack on a source that yields tokens and an end token yields what its
    layers make of the tokens, and the same end token. -/
theorem yields_ended {ts : List Token} {z : Token} (h : S.Yields s ts (.ok z) s'')
    (ls : List Layer) :
    (source S ls).Yields (fresh s ls) (rewrite ls ts) (.ok z) (ended z s'' ls) := by
  induction ls with
  | nil => exact h
  | cons l ls ih => exact Layer.yields_rewrite ih

theorem yields_rewrite {ts : List Token} {z : Token} (h : S.Yields s ts (.ok z) s'')
    (ls : List Layer) :
    ∃ st, (source S ls).Yields (fresh s ls) (rewrite ls ts) (.ok z) st ∧ st.base = s'' :=
  ⟨ended z s'' ls, yields_ended h ls, base_ended z s'' ls⟩

/-- A stack on a source that fails reports the failure, after the beginning of
    what its layers make of the tokens before the failure and any others. -/
theorem yields_error {ts : List Token} {e : Error} (h : S.Yields s ts (.error e) s'')
    (ls : List Layer) :
    ∃ us st, (source S ls).Yields (fresh s ls) us (.error (report ls e)) st ∧ st.base = s'' ∧
      ∀ vs, us <+: rewrite ls (ts ++ vs) := by
  induction ls with
  | nil => exact ⟨ts, s'', h, rfl, fun vs => ts.prefix_append vs⟩
  | cons l ls ih =>
    obtain ⟨us, st, hst, rfl, hprefix⟩ := ih
    obtain ⟨us', m, hus', hprefix'⟩ := Layer.yields_error (l := l) hst
    refine ⟨us', (m, st), hus', rfl, fun vs => ?_⟩
    obtain ⟨ws, hws⟩ := hprefix vs
    have := hprefix' ws
    rwa [hws] at this

/-- A stack on a list gives what its layers make of the tokens before the end
    token. -/
theorem collect_ofList (ls : List Layer) (ts : List Token) :
    (source (TokenList.source Error) ls).collect (fresh (TokenList.ofList ts) ls) =
      .ok (rewrite ls (TokenList.untilEnd ts)) := by
  obtain ⟨z, l, h⟩ := TokenList.yields_ofList Error ts
  obtain ⟨st, hst, -⟩ := yields_rewrite h ls
  exact hst.collect_eq

end Stack

end AlloyLexical

import AlloyLexical.Proofs.Layer.Rewriting
import Mathlib.Data.List.Chain

/-!
# Runs of tokens

The layers of operators and of signs merge tokens: what they hand out is made,
token by token, of the runs that a list is cut into (`MergedBy`). Which runs
these are is said by what a single delivery takes (`mergedBy_rewriteFrom`).

The two layers one after the other merge by the runs of the one or of the other
(`Merges`, `mergedBy_signs_operators`), as what is merged into an operator is
neither a minus sign nor a number. These runs have few shapes (`IsRun`), and
where tokens are in order (`InOrder`) a merged token spans its run and nothing
else (`IsSpanOf`).
-/

namespace AlloyLexical

/-- The tokens `ts` are cut into runs, from each of which one of the tokens `out`
    is made as `P` says. -/
inductive MergedBy (P : List Token → Token → Prop) : List Token → List Token → Prop
  | nil : MergedBy P [] []
  | run {r ts : List Token} {o : Token} {out : List Token} :
    P r o → MergedBy P ts out → MergedBy P (r ++ ts) (o :: out)

namespace MergedBy

variable {P : List Token → Token → Prop} {ts out : List Token} {o : Token}

theorem eq_nil (h : MergedBy P ts []) : ts = [] := by
  cases h
  rfl

theorem exists_run (h : MergedBy P ts (o :: out)) :
    ∃ r us, ts = r ++ us ∧ P r o ∧ MergedBy P us out := by
  rcases h with _ | ⟨hr, hus⟩
  exact ⟨_, _, rfl, hr, hus⟩

theorem concat {r : List Token} (h : MergedBy P ts out) (hr : P r o) :
    MergedBy P (ts ++ r) (out ++ [o]) := by
  induction h with
  | nil =>
    have hlast : MergedBy P (r ++ []) [o] := .run hr .nil
    rwa [List.append_nil] at hlast
  | run hfirst _ ih =>
    rw [List.append_assoc, List.cons_append]
    exact .run hfirst ih

/-- No more tokens are made than there were, if none is made of nothing. -/
theorem length_le (hne : ∀ r o, P r o → r ≠ []) (h : MergedBy P ts out) :
    out.length ≤ ts.length := by
  induction h with
  | nil => exact Nat.le_refl _
  | @run r ts o out hr _ ih =>
    have hr := List.length_pos_iff.2 (hne r o hr)
    rw [List.length_cons, List.length_append]
    omega

/-- Where as many tokens are made as there were, every run is a single token. -/
theorem run_of_length_eq (hne : ∀ r o, P r o → r ≠ []) {r : List Token} (hr : P r o)
    (h : MergedBy P ts out) (hlength : (o :: out).length = (r ++ ts).length) :
    (∃ t, r = [t]) ∧ out.length = ts.length := by
  have hpos := List.length_pos_iff.2 (hne r o hr)
  have hle := h.length_le hne
  rw [List.length_cons, List.length_append] at hlength
  exact ⟨List.length_eq_one_iff.1 (by omega), by omega⟩

/-- Where as many tokens are made as there were, these are the same tokens, if nothing
    else is made of a single one. -/
theorem eq_of_length_eq (hne : ∀ r o, P r o → r ≠ []) (halone : ∀ t o, P [t] o → o = t)
    (h : MergedBy P ts out) (hlength : out.length = ts.length) : out = ts := by
  induction h with
  | nil => rfl
  | run hr hts ih =>
    obtain ⟨⟨t, rfl⟩, hrest⟩ := run_of_length_eq hne hr hts hlength
    rw [halone t _ hr, ih hrest, List.singleton_append]

end MergedBy

/-- A layer whose deliveries take runs merges by these runs. -/
theorem Layer.mergedBy_rewriteFrom {l : Layer} {P : List Token → Token → Prop}
    (hP : ∀ last t ts, TakesRun P (t :: ts) (l.deliver last t ts)) (last : Option TokenKind)
    (ts : List Token) : MergedBy P ts (l.rewriteFrom last ts) := by
  fun_induction l.rewriteFrom last ts with
  | case1 => exact .nil
  | case2 last t ts _ ih =>
    obtain ⟨r, hr, hrun⟩ := hP last t ts
    rw [hr]
    exact .run hrun ih

/-! ## Operators and signs -/

/-- The runs of tokens that the filter makes one token of, each with this
    token. -/
def Merges (r : List Token) (o : Token) : Prop := Operators.Merges r o ∨ Signs.Merges r o

theorem Signs.kind_of_value? {t : Token} {n : Int64} (h : value? t = some n) :
    t.kind = .number := by
  rw [value?] at h
  split at h
  · assumption
  · cases h

theorem MergedBy.comp {ts us out : List Token} (h : MergedBy Operators.Merges ts us)
    (h' : MergedBy Signs.Merges us out) : MergedBy Merges ts out := by
  induction h' generalizing ts with
  | nil =>
    rw [h.eq_nil]
    exact .nil
  | @run r us o out hr hus ih =>
    rcases hr with _ | ⟨ht, hu⟩
    · obtain ⟨r, ts, rfl, hr, hts⟩ := h.exists_run
      exact .run (.inl hr) (ih hts)
    · -- The sign and the number were handed on as they were.
      obtain ⟨r, ts', rfl, hr, h⟩ := h.exists_run
      obtain ⟨r', ts, rfl, hr', hts⟩ := MergedBy.exists_run h
      rcases hr.alone_or with rfl | ⟨-, hne, -⟩
      · rcases hr'.alone_or with rfl | ⟨-, -, hne⟩
        · exact .run (r := [_, _]) (.inr (.sign ht hu)) (ih hts)
        · exact absurd (Signs.kind_of_value? hu) hne
      · exact absurd ht hne

/-- The layers of operators and of signs together merge tokens. -/
theorem mergedBy_signs_operators (ts : List Token) :
    MergedBy Merges ts (Layer.signs.rewrite (Layer.operators.rewrite ts)) :=
  .comp (Layer.mergedBy_rewriteFrom (l := .operators) (fun _ => Operators.takes_deliver) none ts)
    (Layer.mergedBy_rewriteFrom (l := .signs) Signs.takes_deliver none _)

/-! ## Shapes of runs -/

/-- The shapes of the runs that the filter makes one token of. -/
inductive IsRun : List Token → Prop
  | alone (t : Token) : IsRun [t]
  | negation {t u : Token} : t.kind = .not → u.kind.negated?.isSome → IsRun [t, u]
  | totalOrder {t u v : Token} : t.kind = .keyword .pred → u.kind = .slash →
    v.isIdent "totalOrder" → IsRun [t, u, v]
  | function {t u v : Token} {name : String} : t.kind = .keyword .funKw → u.kind = .slash →
    v.isIdent name → (name = "String" ∨ ∃ f : IntFunction, name = f.label) → IsRun [t, u, v]
  | arrowAfter {t u : Token} : t.kind.isMultiplicity → u.kind = .bareArrow → IsRun [t, u]
  | arrowBetween {t u v : Token} : t.kind.isMultiplicity → u.kind = .bareArrow →
    v.kind.isMultiplicity → IsRun [t, u, v]
  | arrowBefore {t u : Token} : t.kind = .bareArrow → u.kind.isMultiplicity → IsRun [t, u]
  | sign {t u : Token} : t.kind = .minus → u.kind = .number → u.number?.isSome → IsRun [t, u]

theorem Signs.number?_of_value? {t : Token} {n : Int64} (h : value? t = some n) :
    t.number? = some n := by
  rwa [value?, if_pos (kind_of_value? h)] at h

theorem Token.payload_of_number? {t : Token} {value : Int64} (h : t.number? = some value) :
    t.payload = some (.number value) := by
  rw [number?] at h
  split at h
  · next hpayload => rw [hpayload, Option.some.inj h]
  · cases h

theorem IntFunction.label_of_ofLabel? {name : String} {f : IntFunction}
    (h : ofLabel? name = some f) : name = f.label := by
  have hf := List.find?_some h
  exact (of_decide_eq_true hf).symm

theorem Operators.isRun_of_member? {t u v m : Token} (hu : u.kind = .slash)
    (h : member? t v = some m) : IsRun [t, u, v] := by
  rw [member?] at h
  split at h
  · next ht hv => exact .totalOrder ht hu (decide_eq_true hv)
  · next ht hv => exact .function ht hu (decide_eq_true hv) (.inl rfl)
  · next name _ ht hv =>
    obtain ⟨f, hf, -⟩ := Option.map_eq_some_iff.1 h
    exact .function ht hu (decide_eq_true hv) (.inr ⟨f, IntFunction.label_of_ofLabel? hf⟩)
  · cases h

theorem Merges.isRun {r : List Token} {o : Token} (h : Merges r o) : IsRun r := by
  rcases h with (_ | ⟨ht, hu⟩ | ⟨hu, hm⟩ | ⟨ht, hu⟩ | ⟨ht, hu⟩ | ⟨ht, hu, hv⟩) | (_ | ⟨ht, hu⟩)
  · exact .alone o
  · exact .negation ht (Option.isSome_iff_exists.2 ⟨_, hu⟩)
  · exact Operators.isRun_of_member? hu hm
  · exact .arrowAfter ht hu
  · exact .arrowBefore ht hu
  · exact .arrowBetween ht hu hv
  · exact .alone o
  · exact .sign ht (Signs.kind_of_value? hu)
      (Option.isSome_iff_exists.2 ⟨_, Signs.number?_of_value? hu⟩)

theorem Merges.ne_nil {r : List Token} {o : Token} (h : Merges r o) : r ≠ [] := by
  rintro rfl
  cases h.isRun

/-- A single token is merged with nothing. -/
theorem Merges.eq_of_alone {t o : Token} (h : Merges [t] o) : o = t := by
  rcases h with h | h <;> cases h <;> rfl

/-! ## Tokens in runs -/

theorem TokenKind.set_or_quantifier {k : TokenKind} (h : k.isMultiplicity) :
    k = .keyword .set ∨ ∃ q, k = .quantifier q := by
  rw [isMultiplicity, multiplicity?.eq_def] at h
  split at h
  · exact .inr ⟨_, rfl⟩
  · exact .inr ⟨_, rfl⟩
  · exact .inr ⟨_, rfl⟩
  · exact .inl rfl
  · cases h

/-- Whether tokens of the given kind may be merged with others. Commands and
    declaring quantifiers are not. -/
def Joins (k : TokenKind) : Prop := ¬Commands.isCommand k ∧ ∀ q, k ≠ .declares q

theorem Joins.of_isMultiplicity {k : TokenKind} (h : k.isMultiplicity) : Joins k := by
  rcases TokenKind.set_or_quantifier h with rfl | ⟨q, rfl⟩ <;> exact ⟨nofun, nofun⟩

theorem Joins.of_negated? {k : TokenKind} (h : k.negated?.isSome) : Joins k := by
  obtain ⟨k', h⟩ := Option.isSome_iff_exists.1 h
  obtain ⟨r, rfl, -⟩ := TokenKind.exists_of_negated? h
  exact ⟨nofun, nofun⟩

theorem Token.name?_eq_some_iff {t : Token} {name : String} :
    t.name? = some name ↔ t.kind = .ident ∧ t.payload = some (.label name) := by
  rw [name?, Option.ite_none_right_eq_some, label?]
  refine and_congr_right fun _ => ?_
  split
  · next label hlabel => rw [hlabel, Option.some_inj, Option.some_inj, Payload.label.injEq]
  · next hlabel => exact iff_of_false (fun h => by cases h) (hlabel name)

theorem Token.kind_of_isIdent {t : Token} {name : String} (h : t.isIdent name) :
    t.kind = .ident := (Token.name?_eq_some_iff.1 (of_decide_eq_true h)).1

theorem IsRun.alone_or {r : List Token} (h : IsRun r) :
    (∃ t, r = [t]) ∨ ∀ t ∈ r, Joins t.kind := by
  have hkind {t : Token} {k : TokenKind} (ht : t.kind = k) (hk : Joins k) : Joins t.kind := ht ▸ hk
  rcases h with _ | ⟨ht, hu⟩ | ⟨ht, hu, hv⟩ | ⟨ht, hu, hv, _⟩ | ⟨ht, hu⟩ | ⟨ht, hu, hv⟩ | ⟨ht, hu⟩ |
    ⟨ht, hu, _⟩
  · exact .inl ⟨_, rfl⟩
  all_goals
    right
    repeat rw [List.forall_mem_cons]
  · exact ⟨hkind ht ⟨nofun, nofun⟩, .of_negated? hu, List.forall_mem_nil _⟩
  · exact ⟨hkind ht ⟨nofun, nofun⟩, hkind hu ⟨nofun, nofun⟩,
      hkind (Token.kind_of_isIdent hv) ⟨nofun, nofun⟩, List.forall_mem_nil _⟩
  · exact ⟨hkind ht ⟨nofun, nofun⟩, hkind hu ⟨nofun, nofun⟩,
      hkind (Token.kind_of_isIdent hv) ⟨nofun, nofun⟩, List.forall_mem_nil _⟩
  · exact ⟨.of_isMultiplicity ht, hkind hu ⟨nofun, nofun⟩, List.forall_mem_nil _⟩
  · exact ⟨.of_isMultiplicity ht, hkind hu ⟨nofun, nofun⟩, .of_isMultiplicity hv,
      List.forall_mem_nil _⟩
  · exact ⟨hkind ht ⟨nofun, nofun⟩, .of_isMultiplicity hu, List.forall_mem_nil _⟩
  · exact ⟨hkind ht ⟨nofun, nofun⟩, hkind hu ⟨nofun, nofun⟩, List.forall_mem_nil _⟩

/-- Whether a run of several tokens may begin with a token of the given kind. -/
def TokenKind.beginsRun : TokenKind → Bool
  | .not | .bareArrow | .minus | .keyword .pred | .keyword .funKw => true
  | k => k.isMultiplicity

theorem TokenKind.beginsRun_of_isMultiplicity {k : TokenKind} (h : k.isMultiplicity) :
    k.beginsRun := by
  rcases set_or_quantifier h with rfl | ⟨q, rfl⟩
  · rfl
  · exact h

theorem TokenKind.not_beginsRun_of_isCommand {k : TokenKind} (h : Commands.isCommand k) :
    ¬k.beginsRun := by
  rw [Commands.isCommand.eq_def] at h
  split at h
  · decide
  · decide
  · cases h

theorem IsRun.eq_nil {t : Token} {r : List Token} (h : IsRun (t :: r)) (ht : ¬t.kind.beginsRun) :
    r = [] := by
  rcases h with _ | ⟨h, _⟩ | ⟨h, _⟩ | ⟨h, _⟩ | ⟨h, _⟩ | ⟨h, _⟩ | ⟨h, _⟩ | ⟨h, _⟩
  · rfl
  · exact absurd (h ▸ rfl) ht
  · exact absurd (h ▸ rfl) ht
  · exact absurd (h ▸ rfl) ht
  · exact absurd (TokenKind.beginsRun_of_isMultiplicity h) ht
  · exact absurd (TokenKind.beginsRun_of_isMultiplicity h) ht
  · exact absurd (h ▸ rfl) ht
  · exact absurd (h ▸ rfl) ht

theorem MergedBy.exists_of_cons {t : Token} {ts out : List Token}
    (h : MergedBy Merges (t :: ts) out) : ∃ r us o out', ts = r ++ us ∧ out = o :: out' ∧
      Merges (t :: r) o ∧ MergedBy Merges us out' := by
  rcases out with _ | ⟨o, out⟩
  · cases h.eq_nil
  obtain ⟨r, us, hts, hr, hus⟩ := h.exists_run
  rcases r with _ | ⟨t', r⟩
  · cases hr.isRun
  obtain ⟨rfl, rfl⟩ := List.cons.inj hts
  exact ⟨r, us, o, out, rfl, rfl, hr, hus⟩

theorem MergedBy.eq_nil_of_nil {out : List Token} (h : MergedBy Merges [] out) : out = [] := by
  rcases out with _ | ⟨o, out⟩
  · rfl
  · obtain ⟨r, us, hnil, hr, -⟩ := h.exists_run
    obtain ⟨rfl, -⟩ := List.nil_eq_append_iff.1 hnil
    cases hr.isRun

/-- Tokens that begin no run of several are made of themselves. -/
theorem MergedBy.exists_of_append {ts us out : List Token} (h : MergedBy Merges (ts ++ us) out)
    (hts : ∀ t ∈ ts, ¬t.kind.beginsRun) :
    ∃ out', out = ts ++ out' ∧ MergedBy Merges us out' := by
  induction ts generalizing out with
  | nil => exact ⟨out, rfl, h⟩
  | cons t ts ih =>
    rw [List.forall_mem_cons] at hts
    obtain ⟨r, vs, o, out, hvs, rfl, hr, hrest⟩ := exists_of_cons h
    obtain rfl := hr.isRun.eq_nil hts.1
    obtain rfl := hr.eq_of_alone
    obtain rfl : ts ++ us = vs := hvs
    obtain ⟨out', rfl, hus⟩ := ih hrest hts.2
    exact ⟨out', rfl, hus⟩

/-! ## Spans of runs -/

/-- The tokens are in order: they are of one file, or of none, each stops where
    it starts or later, and the next one starts later than it stops. -/
structure InOrder (ts : List Token) : Prop where
  file : ∃ f, ∀ t ∈ ts, t.span.file = f
  forward : ∀ t ∈ ts, t.span.start ≤ t.span.stop
  apart : ts.IsChain fun t u => t.span.stop < u.span.start

/-- The span from the start of the first token of a run to the stop of its last
    token. -/
def IsSpanOf (r : List Token) (s : Span) : Prop :=
  ∃ first ∈ r.head?, ∃ last ∈ r.getLast?,
    s = ⟨first.span.file, first.span.start, last.span.stop⟩

namespace InOrder

variable {ts us : List Token}

theorem left (h : InOrder (ts ++ us)) : InOrder ts where
  file := h.file.imp fun _ hf t ht => hf t (List.mem_append_left us ht)
  forward t ht := h.forward t (List.mem_append_left us ht)
  apart := h.apart.left_of_append

theorem right (h : InOrder (ts ++ us)) : InOrder us where
  file := h.file.imp fun _ hf t ht => hf t (List.mem_append_right ts ht)
  forward t ht := h.forward t (List.mem_append_right ts ht)
  apart := h.apart.right_of_append

/-- A token stops before any token behind it starts. -/
theorem stop_lt {t u : Token} {r : List Token} (h : InOrder (t :: (r ++ [u]))) :
    t.span.stop < u.span.start := by
  induction r generalizing t with
  | nil => exact (List.isChain_cons_cons.1 h.apart).1
  | cons v r ih =>
    have htv := (List.isChain_cons_cons.1 h.apart).1
    have hv := h.forward v (List.mem_cons_of_mem _ List.mem_cons_self)
    have hvu := ih (show InOrder ([t] ++ v :: (r ++ [u])) from h).right
    rw [Position.lt_def] at *
    rw [Position.le_def] at hv
    omega

/-- The first and the last of some tokens merge into the span of all of
    them. -/
theorem merge_eq {t u : Token} {r : List Token} (h : InOrder (t :: (r ++ [u]))) :
    t.span.merge u.span = ⟨t.span.file, t.span.start, u.span.stop⟩ := by
  have htu := h.stop_lt
  have ht := h.forward t List.mem_cons_self
  have hu : u ∈ t :: (r ++ [u]) := List.mem_cons_of_mem _ (List.mem_append_right r (by simp))
  have hfile : u.span.file = t.span.file := by
    obtain ⟨f, hf⟩ := h.file
    rw [hf u hu, hf t List.mem_cons_self]
  have hu := h.forward u hu
  -- Both ends of `u` are behind those of `t`, so each end is taken from one side.
  have hstart : t.span.start ≤ u.span.start := by
    rw [Position.le_def, Position.lt_def] at *
    omega
  have hstop : t.span.stop ≤ u.span.stop := by
    rw [Position.le_def, Position.lt_def] at *
    omega
  have hmerge : Option.merge Span.leastName t.span.file t.span.file = t.span.file :=
    congrArg Span.file (Span.merge_self t.span)
  rw [Span.merge, hfile, hmerge, Position.min_def, Position.max_def, if_pos hstart, if_pos hstop]

/-- Tokens in order are told apart by their spans. -/
theorem eq_of_span_eq (h : InOrder ts) {t u : Token} (ht : t ∈ ts)
    (hu : u ∈ ts) (hspan : t.span = u.span) : t = u := by
  -- One of two tokens at different places stops before the other one starts.
  have hlt {v w : Token} {vs : List Token} (hvs : InOrder (v :: vs)) (hw : w ∈ vs) :
      v.span ≠ w.span := by
    intro hspan
    obtain ⟨before, behind, rfl⟩ := List.append_of_mem hw
    rw [List.append_cons, ← List.cons_append] at hvs
    have hstop := hvs.left.stop_lt
    have hforward := hvs.forward v List.mem_cons_self
    rw [hspan] at hstop hforward
    rw [Position.lt_def] at hstop
    rw [Position.le_def] at hforward
    omega
  induction ts with
  | nil => cases ht
  | cons v ts ih =>
    rcases List.mem_cons.1 ht with rfl | ht'
    · rcases List.mem_cons.1 hu with rfl | hu'
      · rfl
      · exact absurd hspan (hlt h hu')
    · rcases List.mem_cons.1 hu with rfl | hu'
      · exact absurd hspan.symm (hlt h ht')
      · exact ih (show InOrder ([v] ++ ts) from h).right ht' hu'

end InOrder

theorem Operators.span_of_member? {t v m : Token} (h : member? t v = some m) :
    m.span = t.span.merge v.span := by
  rw [member?] at h
  split at h
  · rw [← Option.some.inj h]
    rfl
  · rw [← Option.some.inj h]
  · obtain ⟨f, -, rfl⟩ := Option.map_eq_some_iff.1 h
    rfl
  · cases h

/-- In order, what a run is merged into spans the run. -/
theorem Merges.isSpanOf {r : List Token} {o : Token} (h : Merges r o) (hr : InOrder r) :
    IsSpanOf r o.span := by
  rcases h with (_ | ⟨_, _⟩ | ⟨_, hm⟩ | ⟨_, _⟩ | ⟨_, _⟩ | ⟨_, _, _⟩) | (_ | ⟨_, _⟩)
  · exact ⟨o, rfl, o, rfl, rfl⟩
  · exact ⟨_, rfl, _, rfl, hr.merge_eq (r := [])⟩
  · rw [Operators.span_of_member? hm]
    exact ⟨_, rfl, _, rfl, hr.merge_eq (r := [_])⟩
  · exact ⟨_, rfl, _, rfl, hr.merge_eq (r := [])⟩
  · exact ⟨_, rfl, _, rfl, hr.merge_eq (r := [])⟩
  · exact ⟨_, rfl, _, rfl, hr.merge_eq (r := [_])⟩
  · exact ⟨o, rfl, o, rfl, rfl⟩
  · exact ⟨_, rfl, _, rfl, hr.merge_eq (r := [])⟩

end AlloyLexical

import Mathlib.Data.Finset.Lattice.Fold
import Mathlib.Order.Lattice.Nat
import AlloyLexical.Proofs.Layer.Course
import AlloyLexical.Proofs.Layer.Pattern

/-!
# Declarations, decided by a prefix

Some tokens *decide* whether a quantifier in front of them opens a declaration, if their
kinds match the pattern of a head, or if no tokens behind them could make them match it
(`Declarations.Decides`). The layer of declarations looks ahead until that is the case, and
no further. Its outlooks are the places in the head of a declaration, each of which stands
for the words that the pattern expects from there on (`Declarations.Expects`).

* A kind that leads from one place to another is taken off these words; a kind that leads
  nowhere ends one of them, or begins none (`Declarations.Expects.leads`);
* there is a word expected at each place, and never the empty one
  (`Declarations.Expects.exists_mem`, `Declarations.Expects.nil_notMem`).

So the matter is settled for the layer just when it is decided
(`Declarations.through_eq_none_iff`).

Lookaheads overlap, as there may be quantifiers among the tokens behind a quantifier. Since
the layer reads a token only if it is not in its memory, the number of its readings is the
greatest that any of its deliveries has needed so far (`Declarations.readings_as_needed`).
-/

namespace AlloyLexical

namespace Declarations

/-! ## Words that are expected -/

section

variable {L : Language TokenKind} {P : TokenKind → Prop} {k : TokenKind} {w : List TokenKind}

theorem cons_mem_ofKinds_mul : k :: w ∈ ofKinds P * L ↔ P k ∧ w ∈ L := by
  rw [mem_ofKinds_mul]
  constructor
  · rintro ⟨_, _, hk, hw, ⟨⟩⟩
    exact ⟨hk, hw⟩
  · rintro ⟨hk, hw⟩
    exact ⟨k, w, hk, hw, rfl⟩

theorem nil_notMem_ofKinds_mul : [] ∉ ofKinds P * L := by
  rw [mem_ofKinds_mul]
  rintro ⟨_, _, -, -, ⟨⟩⟩

theorem nil_mem_optional_iff : [] ∈ (1 + ofKinds P) * L ↔ [] ∈ L := by
  rw [add_mul, one_mul, Language.mem_add, or_iff_left nil_notMem_ofKinds_mul]

/-- A first kind that may be missing is taken off, where what comes behind it cannot begin
    with such a kind. -/
theorem cons_mem_optional_iff [DecidablePred P] (hL : P k → k :: w ∉ L) :
    k :: w ∈ (1 + ofKinds P) * L ↔ if P k then w ∈ L else k :: w ∈ L := by
  rw [add_mul, one_mul, Language.mem_add, cons_mem_ofKinds_mul]
  split
  · next hk => rw [or_iff_right (hL hk), and_iff_right hk]
  · next hk => exact or_iff_left fun h => hk h.1

theorem cons_mem_namePattern :
    k :: w ∈ namePattern.matches' ↔ k = .ident ∧ w ∈ separatorPattern.matches' := by
  rw [matches_namePattern, cons_mem_ofKinds_mul]

theorem cons_mem_separatorPattern : k :: w ∈ separatorPattern.matches' ↔
    k = .comma ∧ w ∈ namePattern.matches' ∨ k = .colon ∧ w = [] := by
  rw [matches_separatorPattern, Language.mem_add, cons_mem_ofKinds_mul,
    ← mul_one (ofKinds (· = .colon)), cons_mem_ofKinds_mul, Language.mem_one]

theorem cons_mem_dispositionPattern : k :: w ∈ dispositionPattern.matches' ↔
    if isDisposition k then w ∈ namePattern.matches' else k :: w ∈ namePattern.matches' := by
  rw [matches_dispositionPattern]
  refine cons_mem_optional_iff fun hk hw => ?_
  obtain ⟨rfl, -⟩ := cons_mem_namePattern.1 hw
  cases hk

theorem cons_mem_headPattern : k :: w ∈ headPattern.matches' ↔
    if k = .keyword .privateKw then w ∈ dispositionPattern.matches'
    else k :: w ∈ dispositionPattern.matches' := by
  rw [matches_headPattern]
  refine cons_mem_optional_iff fun hk hw => ?_
  obtain rfl := hk
  cases (cons_mem_namePattern.1 (cons_mem_dispositionPattern.1 hw)).1

end

/-- The places in the head of a declaration, and what the pattern expects at each. -/
inductive Expects : Outlook → Language TokenKind → Prop
  | head : Expects .head headPattern.matches'
  | disposition : Expects .disposition dispositionPattern.matches'
  | name : Expects .name namePattern.matches'
  | separator : Expects .separator separatorPattern.matches'

/-- What a kind does to what is expected: if it leads to another place, it is taken off, and
    if it leads to none, it ends what is expected or has no place there. -/
def Leads (L : Language TokenKind) (k : TokenKind) : Option Outlook → Prop
  | some q => ∃ M, Expects q M ∧ ∀ w, k :: w ∈ L ↔ w ∈ M
  | none => ∀ w, k :: w ∈ L → w = []

section

variable {q : Outlook} {L M : Language TokenKind} {k : TokenKind}

theorem Leads.congr {next : Option Outlook} (h : Leads M k next)
    (hL : ∀ w, k :: w ∈ L ↔ k :: w ∈ M) : Leads L k next := by
  rcases next with _ | q
  · exact fun w hw => h w ((hL w).1 hw)
  · obtain ⟨N, hN, hM⟩ := h
    exact ⟨N, hN, fun w => (hL w).trans (hM w)⟩

theorem leads_separatorPattern (k : TokenKind) :
    Leads separatorPattern.matches' k (Outlook.separator.advance k) := by
  rw [Outlook.advance_separator]
  split
  · next hk =>
    subst hk
    exact ⟨_, .name, fun w => by simp [cons_mem_separatorPattern]⟩
  · next hk =>
    intro w hw
    obtain ⟨hcomma, -⟩ | ⟨-, hw⟩ := cons_mem_separatorPattern.1 hw
    · exact absurd hcomma hk
    · exact hw

theorem leads_namePattern (k : TokenKind) :
    Leads namePattern.matches' k (Outlook.name.advance k) := by
  rw [Outlook.advance_name]
  split
  · next hk => exact ⟨_, .separator, fun w => by rw [cons_mem_namePattern, and_iff_right hk]⟩
  · next hk => exact fun w hw => absurd (cons_mem_namePattern.1 hw).1 hk

theorem leads_dispositionPattern (k : TokenKind) :
    Leads dispositionPattern.matches' k (Outlook.disposition.advance k) := by
  rw [Outlook.advance_disposition]
  split
  · next hk => exact ⟨_, .name, fun w => by rw [cons_mem_dispositionPattern, if_pos hk]⟩
  · next hk =>
    exact (leads_namePattern k).congr fun w => by rw [cons_mem_dispositionPattern, if_neg hk]

theorem leads_headPattern (k : TokenKind) :
    Leads headPattern.matches' k (Outlook.head.advance k) := by
  rw [Outlook.advance_head]
  split
  · next hk => exact ⟨_, .disposition, fun w => by rw [cons_mem_headPattern, if_pos hk]⟩
  · next hk =>
    exact (leads_dispositionPattern k).congr fun w => by rw [cons_mem_headPattern, if_neg hk]

theorem Expects.leads (h : Expects q L) (k : TokenKind) : Leads L k (q.advance k) := by
  cases h with
  | head => exact leads_headPattern k
  | disposition => exact leads_dispositionPattern k
  | name => exact leads_namePattern k
  | separator => exact leads_separatorPattern k

/-- Something is expected at every place. -/
theorem Expects.exists_mem (h : Expects q L) : ∃ w, w ∈ L := by
  have hseparator : [.colon] ∈ separatorPattern.matches' := by
    rw [cons_mem_separatorPattern]
    exact .inr ⟨rfl, rfl⟩
  have hname : [.ident, .colon] ∈ namePattern.matches' :=
    cons_mem_namePattern.2 ⟨rfl, hseparator⟩
  have hdisposition : [.ident, .colon] ∈ dispositionPattern.matches' :=
    cons_mem_dispositionPattern.2 hname
  cases h with
  | head => exact ⟨[.ident, .colon], cons_mem_headPattern.2 hdisposition⟩
  | disposition => exact ⟨_, hdisposition⟩
  | name => exact ⟨_, hname⟩
  | separator => exact ⟨_, hseparator⟩

theorem Expects.nil_notMem (h : Expects q L) : [] ∉ L := by
  have hname : [] ∉ namePattern.matches' := by
    rw [matches_namePattern]
    exact nil_notMem_ofKinds_mul
  have hdisposition : [] ∉ dispositionPattern.matches' := by
    rwa [matches_dispositionPattern, nil_mem_optional_iff]
  cases h with
  | head => rwa [matches_headPattern, nil_mem_optional_iff]
  | disposition => exact hdisposition
  | name => exact hname
  | separator =>
    rw [matches_separatorPattern, Language.mem_add, ← mul_one (ofKinds (· = .colon))]
    exact not_or_intro nil_notMem_ofKinds_mul nil_notMem_ofKinds_mul

end

/-! ## Prefixes that decide -/

/-- Whether a word decides about a language: it belongs to it, or no word does that goes on
    from there. -/
def Decides (L : Language TokenKind) (w : List TokenKind) : Prop := w ∈ L ∨ ∀ v, w ++ v ∉ L

/-- The matter is settled by the tokens that decide it. -/
theorem through_eq_none_iff {q : Outlook} {L : Language TokenKind} (h : Expects q L)
    (ts : List Token) : q.through ts = none ↔ Decides L (ts.map Token.kind) := by
  induction ts generalizing q L with
  | nil =>
    obtain ⟨w, hw⟩ := h.exists_mem
    refine iff_of_false nofun ?_
    rintro (hnil | hnone)
    · exact h.nil_notMem hnil
    · exact hnone w hw
  | cons t ts ih =>
    have hleads := h.leads t.kind
    rw [Outlook.through_cons, List.map_cons]
    rcases hq : q.advance t.kind with _ | q'
    · -- What goes on from here is no word, so this is one if any is.
      rw [hq] at hleads
      refine iff_of_true rfl ?_
      by_cases hword : t.kind :: ts.map Token.kind ∈ L
      · exact .inl hword
      · refine .inr fun v hv => hword ?_
        obtain ⟨hts, rfl⟩ := List.append_eq_nil_iff.1 (hleads _ hv)
        rwa [List.append_nil] at hv
    · rw [hq] at hleads
      obtain ⟨M, hM, hcons⟩ := hleads
      simp only [Option.bind_some, ih hM, Decides, List.cons_append, hcons]

/-! ## What a delivery needs -/

/-- Whether the token at a place is a quantifier, and there is no colon right in front of it. -/
structure Asks (us : List Token) (i : ℕ) : Prop where
  quantifies : ∃ q, us[i]?.map Token.kind = some (.quantifier q)
  not_behind_colon : ∀ j, j + 1 = i → us[j]?.map Token.kind ≠ some .colon

/-- How many tokens there are up to those that decide what becomes of the one at a place:
    they end with this token, or if it asks for a head with the shortest prefix of what
    follows that decides whether there is one. -/
inductive Needs (us : List Token) (i : ℕ) : ℕ → Prop
  | itself : ¬Asks us i → Needs us i (i + 1)
  | ahead {m : ℕ} : Asks us i →
    IsLeast {m | ∃ w, w <+: (us.drop (i + 1)).map Token.kind ∧
      Decides headPattern.matches' w ∧ w.length = m} m →
    Needs us i (i + 1 + m)

/-- An outlook is settled by the shortest prefix that decides. -/
theorem isLeast_reach {q : Outlook} {L : Language TokenKind} (h : Expects q L) {ts : List Token}
    (hts : q.through ts = none) :
    IsLeast {m | ∃ w, w <+: ts.map Token.kind ∧ Decides L w ∧ w.length = m} (q.reach ts) := by
  have hdecides (m : ℕ) : Decides L ((ts.map Token.kind).take m) ↔ q.reach ts ≤ m := by
    rw [← List.map_take, ← through_eq_none_iff h, Outlook.through_take_eq_none_iff hts]
  constructor
  · refine ⟨_, List.take_prefix _ _, (hdecides _).2 (Nat.le_refl _), ?_⟩
    rw [List.length_take, List.length_map, Nat.min_eq_left (q.reach_le_length ts)]
  · rintro _ ⟨w, hw, hw', rfl⟩
    rw [List.prefix_iff_eq_take.1 hw] at hw'
    exact (hdecides _).1 hw'

section

variable {ts rest : List Token} {t z : Token} {k r : ℕ} {m : Memory}

theorem rest_eq (h : Layer.declarations.Stage ts z k m r rest) : rest = ts.drop k := by
  induction h with
  | start => rfl
  | @next k m r t rest _ ih =>
    calc
      (deliver m.last t rest).2 = (t :: rest).tail := deliver_snd m.last t rest
      _ = ts.drop (k + 1) := by rw [ih, List.tail_drop]

theorem getElem?_of_stage (h : Layer.declarations.Stage ts z k m r (t :: rest)) :
    ts[k]? = some t := by
  rw [← List.head?_drop, ← rest_eq h]
  rfl

/-- The layer remembers a colon when it has just handed one out, which was one already. -/
theorem last_eq_colon_iff (h : Layer.declarations.Stage ts z k m r rest) :
    m.last = some .colon ↔ ∃ j, j + 1 = k ∧ ts[j]?.map Token.kind = some .colon := by
  cases h with
  | start => exact iff_of_false nofun (by rintro ⟨j, hj, -⟩; cases hj)
  | @next k m r t rest h =>
    have hcolon := (declares_deliver m.last t rest).kind_eq_iff (k := .colon) rfl
    simp only [Nat.add_right_cancel_iff, exists_eq_left, getElem?_of_stage h, Option.map_some,
      Option.some_inj]
    exact hcolon

theorem asks_iff (h : Layer.declarations.Stage ts z k m r (t :: rest)) :
    Asks (ts ++ [z]) k ↔ m.last ≠ some .colon ∧ t.kind.declaring?.isSome := by
  have ht := getElem?_of_stage h
  have hlt : k < ts.length := (List.getElem?_eq_some_iff.1 ht).1
  have hbefore (j : ℕ) (hj : j ≤ k) : (ts ++ [z])[j]? = ts[j]? :=
    List.getElem?_append_left (Nat.lt_of_le_of_lt hj hlt)
  have hquantifies : (∃ q, (ts ++ [z])[k]?.map Token.kind = some (.quantifier q)) ↔
      t.kind.declaring?.isSome := by
    rw [hbefore k (Nat.le_refl k), ht, Option.isSome_iff_exists]
    constructor
    · rintro ⟨q, hq⟩
      exact ⟨.declares q, by rw [Option.some.inj hq]; rfl⟩
    · rintro ⟨kind, hkind⟩
      obtain ⟨q, hq, -⟩ := TokenKind.exists_of_declaring? hkind
      exact ⟨q, congrArg some hq⟩
  have hcolon : (∀ j, j + 1 = k → (ts ++ [z])[j]?.map Token.kind ≠ some .colon) ↔
      m.last ≠ some .colon := by
    rw [ne_eq, last_eq_colon_iff h]
    constructor
    · rintro hnone ⟨j, rfl, hj⟩
      exact hnone j rfl (by rwa [hbefore j (Nat.le_succ j)])
    · rintro hnone j rfl hj
      rw [hbefore j (Nat.le_succ j)] at hj
      exact hnone ⟨j, rfl, hj⟩
  rw [← hcolon, ← hquantifies]
  exact ⟨fun h => ⟨h.not_behind_colon, h.quantifies⟩, fun h => ⟨h.2, h.1⟩⟩

/-- The layer looks ahead as far as it needs to for what it delivers. -/
theorem needs_iff (hz : z.kind = .eof) (h : Layer.declarations.Stage ts z k m r (t :: rest))
    (n : ℕ) : Needs (ts ++ [z]) k n ↔
      n = k + 1 + Layer.declarations.ahead m.last t (rest ++ [z]) := by
  have hrest : (ts ++ [z]).drop (k + 1) = rest ++ [z] := by
    have hlt : k < ts.length := (List.getElem?_eq_some_iff.1 (getElem?_of_stage h)).1
    rw [List.drop_append_of_le_length hlt, ← List.tail_drop, ← rest_eq h]
    rfl
  have hasks := asks_iff h
  by_cases hhead : m.last ≠ some .colon ∧ t.kind.declaring?.isSome
  · have hleast := isLeast_reach .head (Outlook.head.through_append_eof rest hz)
    have hahead : Layer.declarations.ahead m.last t (rest ++ [z]) =
        Outlook.head.reach (rest ++ [z]) := by
      rw [Layer.ahead, Layer.outlook, outlook, if_pos hhead]
    rw [← hrest] at hleast
    rw [hahead, ← hrest]
    constructor
    · rintro (hnot | ⟨_, hm⟩)
      · exact absurd (hasks.2 hhead) hnot
      · rw [hm.unique hleast]
    · rintro rfl
      exact .ahead (hasks.2 hhead) hleast
  · have hahead : Layer.declarations.ahead m.last t (rest ++ [z]) = 0 := by
      rw [Layer.ahead, Layer.outlook, outlook, if_neg hhead]
    rw [hahead, Nat.add_zero]
    constructor
    · rintro (_ | ⟨h', -⟩)
      · rfl
      · exact absurd (hasks.1 h') hhead
    · rintro rfl
      exact .itself fun h' => hhead (hasks.1 h')

/-- A delivery makes the layer read as far as it needs, if it has not read that far before. -/
theorem readings_next (hz : z.kind = .eof)
    (h : Layer.declarations.Stage ts z k m r (t :: rest)) :
    r + ((Layer.declarations.sight m t (rest ++ [z])).length + 1 - m.pending.length) =
      max r (k + 1 + Layer.declarations.ahead m.last t (rest ++ [z])) := by
  have hreadings := h.readings_add hz
  have hlength := congrArg List.length (rest_eq h)
  have hpending := (h.pending_append hz).1
  rw [List.length_drop, List.length_cons] at hlength
  rw [List.length_cons] at hreadings
  rw [Layer.length_sight (by rw [List.length_append, List.length_singleton]; omega)]
  omega

/-- So the readings are the greatest number that any delivery has needed. -/
theorem readings_eq_sup (hz : z.kind = .eof) {need : ℕ → ℕ}
    (hneed : ∀ i < ts.length, ∀ n, Needs (ts ++ [z]) i n ↔ n = need i)
    (h : Layer.declarations.Stage ts z k m r rest) : r = (Finset.range k).sup need := by
  induction h with
  | start => rfl
  | @next k m r t rest h ih =>
    have hlt : k < ts.length := (List.getElem?_eq_some_iff.1 (getElem?_of_stage h)).1
    have hk : k + 1 + Layer.declarations.ahead m.last t (rest ++ [z]) = need k :=
      (hneed k hlt _).1 ((needs_iff hz h _).2 rfl)
    rw [readings_next hz h, hk, ih, Finset.range_add_one, Finset.sup_insert]
    exact max_comm _ _

end

variable {σ : Type} {S : Source Error σ} {s s' : σ}

/-- On a source of some tokens and an end token, the layer of declarations has read its source
    just as often as any of the tokens that it has handed out needed: each of them itself, and
    if it is a quantifier with no colon in front of it also the shortest prefix of what
    follows it that decides whether there is a head of a declaration. -/
theorem readings_as_needed {ts : List Token} {z : Token} (h : S.Yields s ts (.ok z) s') :
    ∃ need : ℕ → ℕ, (∀ i < ts.length, ∀ n, Needs (ts ++ [z]) i n ↔ n = need i) ∧
      ∀ k ≤ ts.length, ((Layer.declarations.atop (Counted.source S)).after k
        (Memory.empty, Counted.fresh s)).2.readings = (Finset.range k).sup need := by
  have hlength : (Layer.declarations.rewrite ts).length = ts.length :=
    (forall₂_declares none ts).length_eq.symm
  have hexists (i : ℕ) : ∃ n, i < ts.length → ∀ n', Needs (ts ++ [z]) i n' ↔ n' = n := by
    by_cases hi : i < ts.length
    · obtain ⟨m, r, rest, hstage⟩ :=
        Layer.declarations.exists_stage ts z (k := i) (by rw [hlength]; exact hi.le)
      rcases rest with _ | ⟨t, rest⟩
      · exact absurd (rest_eq hstage).symm (List.drop_eq_nil_iff.not.2 (Nat.not_le_of_lt hi))
      · exact ⟨_, fun _ => needs_iff h.ends hstage⟩
    · exact ⟨0, fun hi' => absurd hi' hi⟩
  choose need hneed using hexists
  refine ⟨need, hneed, fun k hk => ?_⟩
  obtain ⟨m, r, rest, hstage⟩ := Layer.declarations.exists_stage ts z (hlength ▸ hk)
  have hafter := hstage.after_eq (Counted.yields h 0).hands h.ne_eof h.ends
  rw [Counted.after_mk, Nat.zero_add] at hafter
  exact (congrArg (·.2.readings) hafter).trans (readings_eq_sup h.ends hneed hstage)

/-- The tokens of `all some a, b: lone A some c, d e`. Behind `all` there is no head, as the
    next token tells; behind the first `some` there is one up to the colon; `lone` belongs to
    a type; and behind the second `some` the name `e` tells that there is none. -/
theorem readings_as_needed_of_each_sort :
    let t (kind : TokenKind) (column : Nat) : Token := ⟨kind, none, .point none ⟨1, column⟩⟩
    let ts := [t (.quantifier .all) 1, t (.quantifier .some) 2, t .ident 3, t .comma 4,
      t .ident 5, t .colon 6, t (.quantifier .lone) 7, t .ident 8, t (.quantifier .some) 9,
      t .ident 10, t .comma 11, t .ident 12, t .ident 13]
    let z := t .eof 14
    (TokenList.source Error).Yields ⟨ts, z.span⟩ ts (.ok z) ⟨[], z.span⟩ ∧
      Needs (ts ++ [z]) 0 2 ∧ Needs (ts ++ [z]) 1 6 ∧ Needs (ts ++ [z]) 6 7 ∧
      Needs (ts ++ [z]) 8 13 := by
  intro t ts z
  have h : (TokenList.source Error).Yields ⟨ts, z.span⟩ ts (.ok z) ⟨[], z.span⟩ := by
    repeat
      refine .next rfl nofun ?_
    exact .done rfl rfl
  obtain ⟨need, hneed, hreadings⟩ := readings_as_needed h
  let layer := Layer.declarations.atop (Counted.source (TokenList.source Error))
  let start : Memory × Counted TokenList := (Memory.empty, Counted.fresh ⟨ts, z.span⟩)
  -- What has been read after a delivery, and before it, tells what this delivery needs.
  have hneeds (k before n : ℕ) (hk : k < 13)
      (hbefore : (layer.after k start).2.readings = before)
      (hafter : (layer.after (k + 1) start).2.readings = n) (hlt : before < n) :
      Needs (ts ++ [z]) k n := by
    have hk' : k < ts.length := hk
    have hmax : n = max (need k) before := by
      rw [← hafter, ← hbefore]
      refine (hreadings (k + 1) hk').trans ?_
      rw [Finset.range_add_one, Finset.sup_insert, ← hreadings k hk'.le]
    refine (hneed k hk' n).2 ?_
    omega
  exact ⟨h, hneeds 0 0 2 (by decide) (by decide +kernel) (by decide +kernel) (by decide),
    hneeds 1 2 6 (by decide) (by decide +kernel) (by decide +kernel) (by decide),
    hneeds 6 6 7 (by decide) (by decide +kernel) (by decide +kernel) (by decide),
    hneeds 8 8 13 (by decide) (by decide +kernel) (by decide +kernel) (by decide)⟩

end Declarations

end AlloyLexical

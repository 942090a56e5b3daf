import AlloyLexical.Proofs.Layer.Rewriting

/-!
# Heads of declarations

The head of a declaration can be said without looking for one (`IsHead`): it is a
colon with a name in front, and in front of that possibly the word `private`,
possibly one of the words `disj`, `part` and `exh`, and any number of names, each
with a comma behind it (`IsOpening`).

Where tokens begin with a head, there is one (`exists_of_startsWithHead`). So a
declaring quantifier that the layer of declarations has made out of a quantifier
has a head behind it. What it makes of the tokens in front of this quantifier it
would make of them anyway, as a quantifier is no part of a head
(`exists_of_rewriteFrom_eq`).
-/

namespace AlloyLexical

namespace Declarations

/-! ## The shape of a head -/

/-- A name and a comma. -/
def IsListed (n : Token × Token) : Prop := n.1.kind = .ident ∧ n.2.kind = .comma

/-- The tokens of some names, each with its comma. -/
def listed (names : List (Token × Token)) : List Token := names.flatMap fun n => [n.1, n.2]

/-- What stands in front of the last name in a head. -/
def IsOpening (ts : List Token) : Prop :=
  ∃ (word disposition : Option Token) (names : List (Token × Token)),
    ts = word.toList ++ disposition.toList ++ listed names ∧
      (∀ t ∈ word, t.kind = .keyword .privateKw) ∧ (∀ t ∈ disposition, isDisposition t.kind) ∧
      ∀ n ∈ names, IsListed n

/-- The head of a declaration, of which the last name and the colon are given
    apart. -/
structure IsHead (opening : List Token) (name colon : Token) : Prop where
  opening : IsOpening opening
  name : name.kind = .ident
  colon : colon.kind = .colon

theorem hasPlace_of_isDisposition {k : TokenKind} (h : isDisposition k) :
    hasPlace k ∧ k ≠ .colon := by
  rw [isDisposition.eq_def] at h
  split at h
  · exact ⟨rfl, by decide⟩
  · exact ⟨rfl, by decide⟩
  · exact ⟨rfl, by decide⟩
  · cases h

theorem IsOpening.hasPlace {ts : List Token} (h : IsOpening ts) :
    ∀ t ∈ ts, hasPlace t.kind ∧ t.kind ≠ .colon := by
  obtain ⟨word, disposition, names, rfl, hword, hdisposition, hnames⟩ := h
  simp only [List.forall_mem_append, Option.mem_toList]
  refine ⟨⟨fun t ht => ?_, fun t ht => hasPlace_of_isDisposition (hdisposition t ht)⟩, ?_⟩
  · rw [hword t ht]
    exact ⟨rfl, nofun⟩
  · intro t ht
    obtain ⟨n, hn, ht⟩ := List.mem_flatMap.1 ht
    obtain ⟨hname, hcomma⟩ := hnames n hn
    obtain rfl | rfl : t = n.1 ∨ t = n.2 := by simpa using ht
    · rw [hname]
      exact ⟨rfl, nofun⟩
    · rw [hcomma]
      exact ⟨rfl, nofun⟩

/-! ## Finding a head -/

theorem exists_of_startsWithNames {ts : List Token} (h : startsWithNames ts) :
    ∃ names name colon rest, ts = listed names ++ name :: colon :: rest ∧
      (∀ n ∈ names, IsListed n) ∧ name.kind = .ident ∧ colon.kind = .colon := by
  fun_induction startsWithNames ts with
  | case1 t u ts ih =>
    obtain ⟨ht, hu | ⟨hu, hts⟩⟩ : t.kind = .ident ∧
        (u.kind = .colon ∨ u.kind = .comma ∧ startsWithNames ts) := by
      simpa [startsWithNames] using h
    · exact ⟨[], t, u, ts, rfl, List.forall_mem_nil _, ht, hu⟩
    · obtain ⟨names, name, colon, rest, rfl, hnames, hname, hcolon⟩ := ih hts
      exact ⟨(t, u) :: names, name, colon, rest, rfl,
        List.forall_mem_cons.2 ⟨⟨ht, hu⟩, hnames⟩, hname, hcolon⟩
  | case2 => cases h

/-- What drops a token of some kinds, if there is one at the head, has such a token
    to drop or none. -/
theorem exists_dropped {P : TokenKind → Prop} [DecidablePred P] {f : List Token → List Token}
    (hnil : f [] = []) (hcons : ∀ t ts, f (t :: ts) = if P t.kind then ts else t :: ts)
    (ts : List Token) : ∃ word : Option Token, ts = word.toList ++ f ts ∧ ∀ t ∈ word, P t.kind := by
  have hnone (t : Token) (ht : t ∈ none) : P t.kind := by cases ht
  rcases ts with _ | ⟨t, ts⟩
  · exact ⟨none, hnil.symm, hnone⟩
  rw [hcons]
  split
  · next ht => exact ⟨some t, rfl, by rintro _ ⟨⟩; exact ht⟩
  · exact ⟨none, rfl, hnone⟩

/-- What begins with a head has one at its beginning. -/
theorem exists_of_startsWithHead {ts : List Token} (h : startsWithHead ts) :
    ∃ opening name colon rest, ts = opening ++ name :: colon :: rest ∧
      IsHead opening name colon := by
  obtain ⟨word, hts, hword⟩ :=
    exists_dropped (P := (· = .keyword .privateKw)) (f := dropPrivate) rfl (fun _ _ => rfl) ts
  obtain ⟨disposition, hprivate, hdisposition⟩ :=
    exists_dropped (P := (isDisposition ·)) (f := dropDisposition) rfl (fun _ _ => rfl)
      (dropPrivate ts)
  obtain ⟨names, name, colon, rest, hrest, hnames, hname, hcolon⟩ := exists_of_startsWithNames h
  refine ⟨_, name, colon, rest, ?_,
    ⟨word, disposition, names, rfl, hword, hdisposition, hnames⟩, hname, hcolon⟩
  rw [List.append_assoc, ← hrest, List.append_assoc, ← hprivate, ← hts]

/-! ## Where heads are found -/

theorem rewriteFrom_cons (last : Option TokenKind) (t : Token) (ts : List Token) :
    Layer.declarations.rewriteFrom last (t :: ts) =
      (deliver last t ts).1 ::
        Layer.declarations.rewriteFrom (some (deliver last t ts).1.kind) ts := by
  rw [Layer.rewriteFrom_cons]
  exact congrArg (_ :: Layer.declarations.rewriteFrom _ ·) (deliver_snd last t ts)

theorem startsWithHead_of_deliver {last : Option TokenKind} {t : Token} {ts : List Token}
    {q : Quantifier} (h : (deliver last t ts).1.kind = .declares q)
    (ht : t.kind ≠ .declares q) :
    t.kind = .quantifier q ∧ (deliver last t ts).1 = t.withKind (.declares q) ∧
      startsWithHead ts := by
  rw [deliver] at h ⊢
  rcases hkind : t.kind.declaring? with _ | kind
  · rw [hkind] at h
    exact absurd h ht
  simp only [hkind] at h ⊢
  by_cases hhead : last ≠ some .colon ∧ startsWithHead ts
  · rw [if_pos hhead] at h ⊢
    obtain ⟨q', hq', rfl⟩ := TokenKind.exists_of_declaring? hkind
    obtain rfl : q' = q := TokenKind.declares.inj h
    exact ⟨hq', rfl, hhead.2⟩
  · rw [if_neg hhead] at h
    exact absurd h ht

/-- A declaring quantifier comes out where there was a quantifier with a head
    behind it, and the tokens in front of both are rewritten as if they ended
    there. -/
theorem exists_of_rewriteFrom_eq {last : Option TokenKind} {ts before behind : List Token}
    {d : Token} {q : Quantifier}
    (h : Layer.declarations.rewriteFrom last ts = before ++ d :: behind)
    (hts : ∀ t ∈ ts, t.kind ≠ .declares q) (hd : d.kind = .declares q) :
    ∃ earlier t later, ts = earlier ++ t :: later ∧
      Layer.declarations.rewriteFrom last earlier = before ∧ t.kind = .quantifier q ∧
      d = t.withKind (.declares q) ∧ startsWithHead later ∧
      behind = Layer.declarations.rewriteFrom (some d.kind) later := by
  induction before generalizing last ts with
  | nil =>
    rcases ts with _ | ⟨t, ts⟩
    · rw [Layer.rewriteFrom_nil] at h
      cases h
    rw [rewriteFrom_cons] at h
    obtain ⟨rfl, rfl⟩ := List.cons.inj h
    obtain ⟨ht, hd, hhead⟩ := startsWithHead_of_deliver hd (hts t List.mem_cons_self)
    exact ⟨[], t, ts, rfl, Layer.rewriteFrom_nil _ _, ht, hd, hhead, rfl⟩
  | cons o before ih =>
    rcases ts with _ | ⟨t, ts⟩
    · rw [Layer.rewriteFrom_nil] at h
      cases h
    rw [rewriteFrom_cons] at h
    obtain ⟨ho, hrest⟩ := List.cons.inj h
    obtain ⟨earlier, u, later, rfl, hbefore, hu, hbehind⟩ :=
      ih hrest (List.forall_mem_cons.1 hts).2
    refine ⟨t :: earlier, u, later, rfl, ?_, hu, hbehind⟩
    have hplace : hasPlace u.kind = false := by
      rw [hu]
      rfl
    have hsame : (deliver last t (earlier ++ u :: later)).1 = (deliver last t earlier).1 := by
      rw [deliver_append_foreign last t earlier later hplace]
      rfl
    rw [hsame] at ho hbefore
    rw [rewriteFrom_cons, hbefore, ho]

end Declarations

end AlloyLexical

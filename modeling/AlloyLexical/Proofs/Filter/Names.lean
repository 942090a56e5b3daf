import AlloyLexical.Proofs.Declaration.Outcome
import AlloyLexical.Proofs.Filter.Payloads

/-!
# Names of a text

A name may be refused where it is declared, for being empty or for a reserved character in
it. Of the names that the filter makes of a text some have a slash in them, and nothing else
is ever wrong with one (`filterText_names`).

* The label of a name is made of segments, which are not empty and have neither slashes nor
  at signs in them. So there is a slash just where there are several segments
  (`Word.IsName.slash_mem_iff`).
* A name that comes out was scanned as it is, or it is the member `String` of a library,
  whose qualifier was scanned apart (`HandedOut.mem_or_isStringMember`).
* Where names go into a merged token their labels are those of members, which have no slash
  in them. So qualified names that were scanned come out (`Arranged.mem_of_slash_mem`).
-/

namespace AlloyLexical

open Commands Declarations Operators

/-! ## Labels -/

namespace Word

/-- A *qualified* label has segments in it, of which there are several, with slashes between
    them. -/
def IsQualified (label : String) : Prop :=
  ∃ w v segments, label.toList = joined (w :: v :: segments) ∧
    ∀ u ∈ w :: v :: segments, IsSegment u

variable {label : String}

theorem IsQualified.slash_mem (h : IsQualified label) : '/' ∈ label.toList := by
  obtain ⟨w, v, segments, hlabel, -⟩ := h
  rw [hlabel, joined_cons]
  exact List.mem_append_right _ List.mem_cons_self

/-- Of the names, those with a slash in them are the qualified ones. -/
theorem IsName.slash_mem_iff (h : IsName label) : '/' ∈ label.toList ↔ IsQualified label := by
  refine ⟨fun hslash => ?_, IsQualified.slash_mem⟩
  obtain ⟨w, _ | ⟨v, segments⟩, hlabel, hsegments, -⟩ := h
  · rw [hlabel, joined, List.intercalate_singleton] at hslash
    exact absurd ((hsegments w List.mem_cons_self).isWordChar '/' hslash) (by decide)
  · exact ⟨w, v, segments, hlabel, hsegments⟩

end Word

namespace Name

variable {n : Name} {t : Token}

theorem ofToken?_eq_some_iff :
    ofToken? t = some n ↔ t.kind = .ident ∧ t.payload = some (.label n.label) ∧ n.span = t.span := by
  rw [ofToken?, Option.map_eq_some_iff]
  constructor
  · rintro ⟨label, hlabel, rfl⟩
    obtain ⟨hkind, hpayload⟩ := Token.name?_eq_some_iff.1 hlabel
    exact ⟨hkind, hpayload, rfl⟩
  · rintro ⟨hkind, hpayload, hspan⟩
    exact ⟨n.label, Token.name?_eq_some_iff.2 ⟨hkind, hpayload⟩, by rw [← hspan]⟩

theorem eq_slash_of_refused {f : DeclarationFault}
    (hn : n.label = "fun/String" ∨ Word.IsName n.label) (h : n.Refused f) :
    f = .reservedCharacter '/' := by
  cases h with
  | empty hempty =>
    rw [hempty] at hn
    rcases hn with heq | hname
    · exact absurd heq (by decide)
    · exact absurd rfl hname.line_not_mem.1
  | slash => rfl
  | atSign _ hat =>
    rcases hn with heq | hname
    · rw [heq] at hat
      exact absurd hat (by decide)
    · exact absurd (hname.of_mem '@' hat) (by decide)

end Name

/-! ## Names that come out -/

/-- The token is the member `String` of a library, made of a qualifier, a slash and a name
    among the tokens `ts`. -/
def IsStringMember (ts : List Token) (t : Token) : Prop :=
  ∃ x y z, [x, y, z] <:+: ts ∧ x.kind = .keyword .funKw ∧ y.kind = .slash ∧ z.isIdent "String" ∧
    t = ⟨.ident, some (.label "fun/String"), x.span.merge z.span⟩

theorem IsStringMember.payload_eq {ts : List Token} {t : Token} (h : IsStringMember ts t) :
    t.payload = some (.label "fun/String") := by
  obtain ⟨x, y, z, -, -, -, -, rfl⟩ := h
  rfl

/-- A name that was made of a run is the run, or the member `String`. -/
theorem Merges.eq_or_isStringMember {r : List Token} {o : Token} (h : Merges r o)
    (ho : o.kind = .ident) : r = [o] ∨ IsStringMember r o := by
  rcases h with h | h
  · cases h.rule with
    | alone => exact .inl rfl
    | string hx hy hz => exact .inr ⟨_, _, _, List.infix_rfl, hx, hy, hz, rfl⟩
    | negation _ hy =>
      obtain ⟨k, -, rfl⟩ := TokenKind.exists_of_negated? hy
      cases ho
    | _ => cases ho
  · cases h with
    | alone => exact .inl rfl
    | sign => cases ho

theorem HandedOut.mem_or_isStringMember {us behind : List Token} {o : Token}
    (h : HandedOut Merges us o behind) (ho : o.kind = .ident) : o ∈ us ∨ IsStringMember us o := by
  cases h with
  | @made earlier r later behind u o hsplit hr _ =>
    have hrun : r ++ [u] <:+: us := ⟨earlier, later, by simp [hsplit]⟩
    rcases hr.eq_or_isStringMember ho with halone | ⟨x, y, z, hxyz, hstring⟩
    · exact .inl (hrun.subset (halone ▸ List.mem_singleton_self o))
    · exact .inr ⟨x, y, z, hxyz.trans hrun, hstring⟩
  | @command _ _ _ name cs cs' c _ _ hclauses =>
    have hcommand := (hclauses c (by simp)).2
    rw [show c.2.kind = .ident from ho] at hcommand
    cases hcommand
  | dot => cases ho
  | name hsplit _ => exact .inl (by simp [hsplit])

/-- A name with a slash in it is taken into no other token. -/
theorem Merges.eq_of_slash_mem {r : List Token} {t o : Token} {n : Name} (h : Merges r o)
    (ht : t ∈ r) (hn : Name.ofToken? t = some n) (hslash : '/' ∈ n.label.toList) : t = o := by
  obtain ⟨hkind, hpayload, -⟩ := Name.ofToken?_eq_some_iff.1 hn
  have hne {u : Token} (hu : u.kind ≠ .ident) : t ≠ u := by
    rintro rfl
    exact hu hkind
  have hne_multiplicity {u : Token} (hu : u.kind.isMultiplicity) : t ≠ u :=
    hne fun hident => by
      rw [hident] at hu
      cases hu
  have hne_member {u : Token} {name : String} (hu : u.isIdent name) (hname : '/' ∉ name.toList) :
      t ≠ u := by
    rintro rfl
    cases hpayload.symm.trans (Token.name?_eq_some_iff.1 (of_decide_eq_true hu)).2
    exact hname hslash
  rcases h with h | h
  · cases h.rule with
    | alone => exact List.mem_singleton.1 ht
    | negation hx hy =>
      obtain ⟨k, hk, -⟩ := TokenKind.exists_of_negated? hy
      simp [hne (hx.trans_ne nofun), hne (hk.trans_ne nofun)] at ht
    | totalOrder hx hy hz =>
      simp [hne (hx.trans_ne nofun), hne (hy.trans_ne nofun), hne_member hz (by decide)] at ht
    | function f hx hy hz =>
      have hlabel : '/' ∉ f.label.toList := by cases f <;> decide
      simp [hne (hx.trans_ne nofun), hne (hy.trans_ne nofun), hne_member hz hlabel] at ht
    | string hx hy hz =>
      simp [hne (hx.trans_ne nofun), hne (hy.trans_ne nofun), hne_member hz (by decide)] at ht
    | arrowBetween hx hy hz =>
      simp [hne_multiplicity hx, hne (hy.trans_ne nofun), hne_multiplicity hz] at ht
    | arrowAfter hx hy => simp [hne_multiplicity hx, hne (hy.trans_ne nofun)] at ht
    | arrowBefore hx hy => simp [hne (hx.trans_ne nofun), hne_multiplicity hy] at ht
  · cases h with
    | alone => exact List.mem_singleton.1 ht
    | sign hx hy =>
      simp [hne (hx.trans_ne nofun), hne ((Signs.kind_of_value? hy).trans_ne nofun)] at ht

theorem Arranged.mem_of_slash_mem {us out : List Token} {t : Token} {n : Name}
    (h : Arranged Merges us out) (ht : t ∈ us) (hn : Name.ofToken? t = some n)
    (hslash : '/' ∈ n.label.toList) : t ∈ out := by
  induction h with
  | nil => exact ht
  | @run r ts out u o hr _ _ ih =>
    rw [List.append_cons, List.mem_append] at ht
    rcases ht with ht | ht
    · rw [hr.eq_of_slash_mem ht hn hslash]
      exact List.mem_cons_self
    · exact List.mem_cons_of_mem _ (ih ht)
  | @named name cs ts out _ _ hclauses _ _ ih =>
    rw [List.mem_cons, List.mem_append] at ht
    rcases ht with rfl | ht | ht
    · exact List.mem_append_right _ List.mem_cons_self
    · exact absurd (Name.ofToken?_eq_some_iff.1 hn).1 (ne_ident_of_mem_written hclauses ht)
    · exact List.mem_append_right _ (List.mem_cons_of_mem _ (ih ht))

/-! ## Names behind the layer of declarations -/

section

variable {ts us : List Token} {t : Token}

/-- The layer of declarations hands on names as they are. -/
theorem mem_iff_of_declares (h : List.Forall₂ Declares ts us) (ht : t.kind = .ident) :
    t ∈ us ↔ t ∈ ts := by
  induction h with
  | nil => rfl
  | @cons x y ts us hxy _ ih =>
    have hhead : t = y ↔ t = x := by
      rcases hxy with rfl | ⟨q, hq, rfl⟩
      · rfl
      · refine iff_of_false ?_ ?_ <;> rintro rfl
        · cases ht
        · cases ht.symm.trans hq
    rw [List.mem_cons, List.mem_cons, hhead, ih]

theorem isStringMember_of_declares (h : List.Forall₂ Declares ts us)
    (ht : IsStringMember us t) : IsStringMember ts t := by
  obtain ⟨x, y, z, ⟨earlier, later, rfl⟩, hx, hy, hz, rfl⟩ := ht
  obtain ⟨_, later', rfl, hmember, -⟩ := exists_of_forall₂_append h
  obtain ⟨earlier', _, rfl, -, hmember⟩ := exists_of_forall₂_append hmember
  obtain rfl := eq_of_declares hmember (by
    simp [hx, hy, Token.kind_of_isIdent hz])
  exact ⟨x, y, z, ⟨earlier', later', rfl⟩, hx, hy, hz, rfl⟩

end

/-! ## Declarations of names -/

namespace Declaration

variable {α : Type}

/-- The names that tokens stand for. A token that is no identifier stands for none. -/
def namesOf (ts : List Token) : List Name := ts.filterMap Name.ofToken?

/-- Whether the token stands for a name that has a slash in it. -/
def HasSlash (t : Token) : Prop := ∃ n, Name.ofToken? t = some n ∧ '/' ∈ n.label.toList

/-- An attempt to declare the names of the tokens `sel` can only fail for two reasons: that
    there is no name, or that there is a slash in one. Then the error is where the first such
    name was written. -/
structure FailsForSlashes (sel : List Token)
    (outcome : Except DeclarationError (Declaration α)) : Prop where
  fault : ∀ e, outcome = .error e → e.fault = .noNames ∨ e.fault = .reservedCharacter '/'
  noNames_iff : (∃ span, outcome = .error ⟨.noNames, span⟩) ↔ namesOf sel = []
  slash_iff : (∃ span, outcome = .error ⟨.reservedCharacter '/', span⟩) ↔ ∃ t ∈ sel, HasSlash t
  first : ∀ before t behind, sel = before ++ t :: behind → (∀ u ∈ before, ¬HasSlash u) →
    HasSlash t → outcome = .error ⟨.reservedCharacter '/', some t.span⟩

section

variable {sel : List Token} {position disjoint : Option Span} {value : α}

theorem mem_namesOf {n : Name} : n ∈ namesOf sel ↔ ∃ t ∈ sel, Name.ofToken? t = some n :=
  List.mem_filterMap

/-- Where names can only be refused for their slashes, they are if they have any. -/
theorem exists_refused_iff (h : ∀ n ∈ namesOf sel, ∀ f, n.Refused f → f = .reservedCharacter '/') :
    (∃ n ∈ namesOf sel, ∃ f, n.Refused f) ↔ ∃ t ∈ sel, HasSlash t := by
  constructor
  · rintro ⟨n, hmem, f, hf⟩
    obtain rfl := h n hmem f hf
    obtain ⟨t, ht, hn⟩ := mem_namesOf.1 hmem
    cases hf with
    | slash hslash => exact ⟨t, ht, n, hn, hslash⟩
  · rintro ⟨t, ht, n, hn, hslash⟩
    exact ⟨n, mem_namesOf.2 ⟨t, ht, hn⟩, _, .slash hslash⟩

/-- The first name with a slash in it is the first one that is refused. -/
theorem of_eq_of_slash {before behind : List Token} {t : Token}
    (h : ∀ n ∈ namesOf before, ∀ f, n.Refused f → f = .reservedCharacter '/')
    (hbefore : ∀ u ∈ before, ¬HasSlash u) (ht : HasSlash t) :
    of position (namesOf (before ++ t :: behind)) disjoint value =
      .error ⟨.reservedCharacter '/', some t.span⟩ := by
  obtain ⟨n, hn, hslash⟩ := ht
  have hspan : n.span = t.span := (Name.ofToken?_eq_some_iff.1 hn).2.2
  have hnames : namesOf (before ++ t :: behind) = namesOf before ++ n :: namesOf behind := by
    rw [namesOf, List.filterMap_append, List.filterMap_cons_some hn]
    rfl
  rw [hnames, ← hspan]
  refine of_of_error (List.findSome?_eq_some_iff.2 ⟨_, n, _, rfl, ?_, fun m hm => ?_⟩)
  · exact Name.error?_eq_some_iff.2 ⟨.slash hslash, rfl⟩
  · refine Name.error?_eq_none_iff.2 fun f hf => ?_
    obtain ⟨u, hu, hslash⟩ := (exists_refused_iff h).1 ⟨m, hm, f, hf⟩
    exact hbefore u hu hslash

theorem failsForSlashes [HasSpan α] (position disjoint : Option Span) (value : α)
    (h : ∀ n ∈ namesOf sel, ∀ f, n.Refused f → f = .reservedCharacter '/') :
    FailsForSlashes sel (of position (namesOf sel) disjoint value) := by
  have hfirst : ∀ before t behind, sel = before ++ t :: behind → (∀ u ∈ before, ¬HasSlash u) →
      HasSlash t → of position (namesOf sel) disjoint value =
        .error ⟨.reservedCharacter '/', some t.span⟩ := by
    rintro before t behind rfl
    refine of_eq_of_slash fun n hn => h n ?_
    obtain ⟨u, hu, hn⟩ := mem_namesOf.1 hn
    exact mem_namesOf.2 ⟨u, List.mem_append_left _ hu, hn⟩
  have hslashes := exists_refused_iff h
  rcases herror : (namesOf sel).findSome? Name.error? with _ | e
  · have hnone : ¬∃ t ∈ sel, HasSlash t := by
      rw [← hslashes]
      rintro ⟨n, hn, f, hf⟩
      exact findSome?_eq_none_iff_refused.1 herror n hn f hf
    by_cases hempty : namesOf sel = []
    · have hout : of position (namesOf sel) disjoint value =
          .error ⟨.noNames, Span.cover position disjoint⟩ := by
        rw [hempty]
        rfl
      rw [hout] at hfirst ⊢
      exact
        { fault := by
            rintro _ ⟨⟩
            exact .inl rfl
          noNames_iff := iff_of_true ⟨_, rfl⟩ hempty
          slash_iff := iff_of_false nofun hnone
          first := hfirst }
    · obtain ⟨d, hd, -⟩ := exists_of_eq_ok position disjoint value hempty herror
      rw [hd] at hfirst ⊢
      exact
        { fault := nofun
          noNames_iff := iff_of_false nofun hempty
          slash_iff := iff_of_false nofun hnone
          first := hfirst }
  · -- The error is that of a name which is refused.
    obtain ⟨before, n, behind, hnames, hn, -⟩ := List.findSome?_eq_some_iff.1 herror
    have hmem : n ∈ namesOf sel := by simp [hnames]
    have hrefused := (Name.error?_eq_some_iff.1 hn).1
    obtain ⟨fault, span⟩ := e
    obtain rfl : fault = .reservedCharacter '/' := h n hmem fault hrefused
    rw [of_of_error herror] at hfirst ⊢
    exact
      { fault := by
          rintro _ ⟨⟩
          exact .inr rfl
        noNames_iff := iff_of_false nofun (List.ne_nil_of_mem hmem)
        slash_iff := iff_of_true ⟨_, rfl⟩ (hslashes.1 ⟨n, hmem, _, hrefused⟩)
        first := hfirst }

end

end Declaration

/-! ## The filter -/

section

variable {text : String} {ts : List Token} {t : Token} {n : Name}

/-- An identifier that comes out carries the label of a name that was scanned, or it is the
    member `String` of a library. -/
theorem exists_label_of_mem (htokens : tokenize text = .ok ts)
    (ht : t ∈ Stack.rewrite Filter.layers ts) (hkind : t.kind = .ident) :
    ∃ label, t.payload = some (.label label) ∧
      ((t ∈ ts ∧ Word.IsName label) ∨ (label = "fun/String" ∧ IsStringMember ts t)) := by
  have hdeclares : List.Forall₂ Declares ts (Layer.declarations.rewrite ts) :=
    forall₂_declares none ts
  obtain ⟨before, behind, hsplit⟩ := List.append_of_mem ht
  have hout := (arranged_upper (Layer.declarations.rewrite ts)).handedOut hsplit
  rcases hout.mem_or_isStringMember hkind with hmem | hstring
  · have hmem : t ∈ ts := (mem_iff_of_declares hdeclares hkind).1 hmem
    have hspellable := spellable_of_tokenize htokens t hmem
    rw [hkind] at hspellable
    generalize hpayload : t.payload = payload at hspellable
    cases hspellable with
    | plain hplain => cases hplain
    | name hname => exact ⟨_, rfl, .inl ⟨hmem, hname⟩⟩
  · exact ⟨_, hstring.payload_eq, .inr ⟨rfl, isStringMember_of_declares hdeclares hstring⟩⟩

theorem name_of_mem (htokens : tokenize text = .ok ts) (ht : t ∈ Stack.rewrite Filter.layers ts)
    (hn : Name.ofToken? t = some n) :
    (t ∈ ts ∧ Word.IsName n.label) ∨ (n.label = "fun/String" ∧ IsStringMember ts t) := by
  obtain ⟨hkind, hpayload, -⟩ := Name.ofToken?_eq_some_iff.1 hn
  obtain ⟨label, hlabel, hout⟩ := exists_label_of_mem htokens ht hkind
  cases hpayload.symm.trans hlabel
  exact hout

/-- Where a name has its slash from. -/
theorem slash_mem_iff_of_mem (htokens : tokenize text = .ok ts)
    (ht : t ∈ Stack.rewrite Filter.layers ts) (hn : Name.ofToken? t = some n) :
    '/' ∈ n.label.toList ↔ (t ∈ ts ∧ Word.IsQualified n.label) ∨ IsStringMember ts t := by
  constructor
  · intro hslash
    rcases name_of_mem htokens ht hn with ⟨hmem, hname⟩ | ⟨-, hmember⟩
    · exact .inl ⟨hmem, hname.slash_mem_iff.1 hslash⟩
    · exact .inr hmember
  · rintro (⟨-, hqualified⟩ | hmember)
    · exact hqualified.slash_mem
    · have hpayload := (Name.ofToken?_eq_some_iff.1 hn).2.1.symm.trans hmember.payload_eq
      rw [Payload.label.inj (Option.some.inj hpayload)]
      decide

/-- There is no other reason to refuse a name that comes out. -/
theorem eq_slash_of_refused_of_mem {f : DeclarationFault} (htokens : tokenize text = .ok ts)
    (ht : t ∈ Stack.rewrite Filter.layers ts) (hn : Name.ofToken? t = some n)
    (h : n.Refused f) : f = .reservedCharacter '/' := by
  refine Name.eq_slash_of_refused ?_ h
  rcases name_of_mem htokens ht hn with ⟨-, hname⟩ | ⟨hstring, -⟩
  · exact .inr hname
  · exact .inl hstring

/-- Identifiers that come out stand for names, and no other tokens do. -/
theorem isSome_ofToken?_iff_of_mem (htokens : tokenize text = .ok ts)
    (ht : t ∈ Stack.rewrite Filter.layers ts) : (Name.ofToken? t).isSome ↔ t.kind = .ident := by
  rw [Option.isSome_iff_exists]
  constructor
  · rintro ⟨n, hn⟩
    exact (Name.ofToken?_eq_some_iff.1 hn).1
  · intro hkind
    obtain ⟨label, hpayload, -⟩ := exists_label_of_mem htokens ht hkind
    exact ⟨⟨label, t.span⟩, Name.ofToken?_eq_some_iff.2 ⟨hkind, hpayload, rfl⟩⟩

end

/-- Of the names that the filter makes of a text, some may be selected. A declaration of these
    fails only if there are none, or if one of them has a slash in it. The names with a slash
    are the qualified ones of the text, all of which come out, and the member `String` of a
    library. Other tokens than identifiers stand for no names, not even the commands that
    carry one. -/
theorem filterText_names {α : Type} [HasSpan α] {text : String} {out : List Token}
    (h : filterText text = .ok out) : ∃ ts, tokenize text = .ok ts ∧
      (∀ sel, sel.Sublist out → ∀ (position disjoint : Option Span) (value : α),
        Declaration.FailsForSlashes sel
          (Declaration.of position (Declaration.namesOf sel) disjoint value)) ∧
      (∀ t ∈ out, ∀ n, Name.ofToken? t = some n →
        ('/' ∈ n.label.toList ↔ (t ∈ ts ∧ Word.IsQualified n.label) ∨ IsStringMember ts t)) ∧
      (∀ t ∈ ts, ∀ n, Name.ofToken? t = some n → Word.IsQualified n.label → t ∈ out) ∧
      ∀ t ∈ out, ((Name.ofToken? t).isSome ↔ t.kind = .ident) ∧
        (isCommand t.kind → Name.ofToken? t = none) := by
  obtain ⟨ts, htokens, rfl⟩ := exists_tokenize_of_filterText h
  refine ⟨ts, htokens, fun sel hsel position disjoint value => ?_,
    fun t ht n hn => slash_mem_iff_of_mem htokens ht hn, fun t ht n hn hqualified => ?_,
    fun t ht => ⟨isSome_ofToken?_iff_of_mem htokens ht, fun hcommand => ?_⟩⟩
  · refine Declaration.failsForSlashes position disjoint value fun n hmem f hf => ?_
    obtain ⟨t, ht, hn⟩ := Declaration.mem_namesOf.1 hmem
    exact eq_slash_of_refused_of_mem htokens (hsel.subset ht) hn hf
  · have hkind := (Name.ofToken?_eq_some_iff.1 hn).1
    refine (arranged_upper _).mem_of_slash_mem ?_ hn hqualified.slash_mem
    exact (mem_iff_of_declares (forall₂_declares none ts) hkind).2 ht
  · refine Option.eq_none_iff_forall_ne_some.2 fun n hn => ?_
    rw [(Name.ofToken?_eq_some_iff.1 hn).1] at hcommand
    cases hcommand

/-- A command that carries the label of its name, a qualified name with a reserved word in it
    and the member `String`, whose names are selected with and without each other. -/
theorem filterText_names_of_each_sort :
    let text := "a: run = x/some fun / String"
    let t (kind : TokenKind) (payload : Option Payload) (start stop : Nat) : Token :=
      ⟨kind, payload, ⟨none, ⟨1, start⟩, ⟨1, stop⟩⟩⟩
    let run := t (.keyword .run) (some (.label "a")) 4 6
    let a := t .ident (some (.label "a")) 1 1
    let qualified := t .ident (some (.label "x/some")) 10 15
    let member := t .ident (some (.label "fun/String")) 17 28
    let out := [run, t .dot none 2 2, a, t (.relation .equal) none 8 8, qualified, member]
    let declare (sel : List Token) : Except DeclarationError (Declaration (Option Span)) :=
      Declaration.of none (Declaration.namesOf sel) none none
    filterText text = .ok out ∧
      (∃ span, declare [run] = .error ⟨.noNames, span⟩) ∧
      declare [run, a, member] = .error ⟨.reservedCharacter '/', some member.span⟩ ∧
      declare [a, qualified, member] = .error ⟨.reservedCharacter '/', some qualified.span⟩ ∧
      (∀ e, declare [run, a] ≠ .error e) ∧
      ∃ ts, tokenize text = .ok ts ∧ IsStringMember ts member := by
  intro text t run a qualified member out declare
  have h : filterText text = .ok out := by decide +kernel
  obtain ⟨ts, htokens, hdeclare, hslash, -, -⟩ := @filterText_names (Option Span) _ _ _ h
  have htokens' : tokenize text = .ok [a, t .colon none 2 2, t (.keyword .run) none 4 6,
      t (.relation .equal) none 8 8, qualified, t (.keyword .funKw) none 17 19,
      t .slash none 21 21, t .ident (some (.label "String")) 23 28] := by decide +kernel
  obtain rfl := Except.ok.inj (htokens.symm.trans htokens')
  have hrun : ¬Declaration.HasSlash run := by
    rintro ⟨n, hn, -⟩
    cases hn
  have ha : ¬Declaration.HasSlash a := by
    rintro ⟨n, hn, hslash⟩
    obtain rfl : (⟨"a", a.span⟩ : Name) = n := Option.some.inj hn
    exact absurd hslash (by decide)
  have hqualified : Declaration.HasSlash qualified := ⟨⟨"x/some", qualified.span⟩, rfl, by decide⟩
  have hmember : Declaration.HasSlash member := ⟨⟨"fun/String", member.span⟩, rfl, by decide⟩
  refine ⟨h, ?_, ?_, ?_, fun e he => ?_, _, htokens, ?_⟩
  · exact (hdeclare [run] (by decide) none none none).noNames_iff.2 rfl
  · exact (hdeclare [run, a, member] (by decide) none none none).first [run, a] member [] rfl
      (by simp [hrun, ha]) hmember
  · exact (hdeclare [a, qualified, member] (by decide) none none none).first [a] qualified
      [member] rfl (by simp [ha]) hqualified
  · have hfails := hdeclare [run, a] (by decide) none none none
    obtain ⟨fault, span⟩ := e
    rcases hfails.fault _ he with rfl | rfl
    · cases hfails.noNames_iff.1 ⟨span, he⟩
    · have hslash := hfails.slash_iff.1 ⟨span, he⟩
      simp [hrun, ha] at hslash
  · have hiff := hslash member (by simp [out]) ⟨"fun/String", member.span⟩ rfl
    exact (hiff.1 (by decide)).resolve_left fun hmem => absurd hmem.1 (by decide)

end AlloyLexical

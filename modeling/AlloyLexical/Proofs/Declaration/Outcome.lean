import AlloyLexical.Declaration
import AlloyLexical.Proofs.Span
import Mathlib.Logic.Function.Iterate

/-!
# Making declarations

What comes of an attempt to make a declaration is told by the list of names alone
(`Declaration.of_outcome`):

* without any name there is no declaration, and the error covers what else there is;
* otherwise the first name that may not be declared (`Name.Refused`) is what is wrong,
  where it was written;
* and if there is no such name either, there is a declaration of just these names, which
  says of them that they are disjoint if it was told so and they are several.

A declaration has covers that do not depend on the order of its names: its position
covers the names, and its span covers the expression as well. The word `disj` is covered
by both, whether it is kept or not, and the span is the same however often it is asked
for (`Declaration.span?_iterate_asked`).
-/

namespace AlloyLexical

/-! ## Names that may not be declared -/

namespace Name

variable {n : Name} {f : DeclarationFault} {e : DeclarationError}

/-- A name may not be declared, for the first of these reasons that there is: it is empty,
    it has a slash in it, or it has an at sign in it. -/
inductive Refused (n : Name) : DeclarationFault → Prop
  | empty : n.label = "" → Refused n .emptyName
  | slash : '/' ∈ n.label.toList → Refused n (.reservedCharacter '/')
  | atSign : '/' ∉ n.label.toList → '@' ∈ n.label.toList → Refused n (.reservedCharacter '@')

theorem fault?_eq_some_iff : n.fault? = some f ↔ n.Refused f := by
  rw [fault?, reserved]
  by_cases hempty : n.label = ""
  · rw [if_pos hempty]
    constructor
    · rintro ⟨⟩
      exact .empty hempty
    · rintro (_ | hslash | ⟨_, hat⟩)
      · rfl
      · simp [hempty] at hslash
      · simp [hempty] at hat
  rw [if_neg hempty]
  by_cases hslash : '/' ∈ n.label.toList
  · rw [List.find?_cons_of_pos (List.contains_iff_mem.2 hslash)]
    constructor
    · rintro ⟨⟩
      exact .slash hslash
    · rintro (hnone | _ | ⟨hno, _⟩)
      · exact absurd hnone hempty
      · rfl
      · exact absurd hslash hno
  rw [List.find?_cons_of_neg (mt List.contains_iff_mem.1 hslash)]
  by_cases hat : '@' ∈ n.label.toList
  · rw [List.find?_cons_of_pos (List.contains_iff_mem.2 hat)]
    constructor
    · rintro ⟨⟩
      exact .atSign hslash hat
    · rintro (hnone | hno | _)
      · exact absurd hnone hempty
      · exact absurd hno hslash
      · rfl
  rw [List.find?_cons_of_neg (mt List.contains_iff_mem.1 hat)]
  constructor
  · rintro ⟨⟩
  · rintro (hnone | hno | ⟨_, hno⟩)
    · exact absurd hnone hempty
    · exact absurd hno hslash
    · exact absurd hno hat

theorem error?_eq_some_iff : n.error? = some e ↔ n.Refused e.fault ∧ e.span = some n.span := by
  rw [error?, Option.map_eq_some_iff]
  constructor
  · rintro ⟨f, hf, rfl⟩
    exact ⟨fault?_eq_some_iff.1 hf, rfl⟩
  · rintro ⟨hf, hspan⟩
    exact ⟨e.fault, fault?_eq_some_iff.2 hf, by rw [← hspan]⟩

theorem error?_eq_none_iff : n.error? = none ↔ ∀ f, ¬n.Refused f := by
  rw [error?, Option.map_eq_none_iff, Option.eq_none_iff_forall_ne_some]
  exact forall_congr' fun f => not_congr fault?_eq_some_iff

end Name

namespace Declaration

variable {α : Type} {position disjoint : Option Span} {names : List Name} {value : α}

/-! ## Covers -/

/-- The places of the names. -/
def places (names : List Name) : List (Option Span) := names.map (some ·.span)

theorem coverNames_eq (position : Option Span) (names : List Name) :
    coverNames position names = Span.coverAll (position :: places names) := by
  induction names generalizing position with
  | nil => exact (Span.cover_none_right position).symm
  | cons n names ih =>
    calc
      coverNames position (n :: names) = coverNames (Span.cover position (some n.span)) names := rfl
      _ = Span.cover (Span.cover position (some n.span)) (Span.coverAll (places names)) := ih _
      _ = Span.coverAll (position :: places (n :: names)) := Span.cover_assoc _ _ _

/-- A declaration that has been asked for its span gives the same answer again. -/
theorem span?_iterate_asked [HasSpan α] (d : Declaration α) (n : Nat) :
    (asked^[n] d).span? = d.span? := by
  induction n generalizing d with
  | zero => rfl
  | succ n ih =>
    rw [Function.iterate_succ_apply, ih]
    rfl

/-! ## Outcomes -/

/-- The declaration is of the given names, and has the covers that go with them. -/
structure IsMadeOf [HasSpan α] (position disjoint : Option Span) (names : List Name) (value : α)
    (d : Declaration α) : Prop where
  names_eq : d.names = names
  value_eq : d.value = value
  isDisjoint_iff : d.isDisjoint ↔ disjoint.isSome ∧ 2 ≤ names.length
  position_eq : d.position = Span.coverAll (position :: disjoint :: places names)
  span?_eq : ∀ n, (asked^[n] d).span? =
    Span.coverAll (position :: disjoint :: (places names ++ [HasSpan.span? value]))

theorem of_of_error {e : DeclarationError} (h : names.findSome? Name.error? = some e) :
    of position names disjoint value = .error e := by
  have hne : names ≠ [] := by
    rintro rfl
    cases h
  rw [of]
  simp only [dif_neg hne]
  split
  · next heq => rw [Option.some.inj (heq.symm.trans h)]
  · next heq => cases heq.symm.trans h

theorem exists_of_eq_ok [HasSpan α] (position disjoint : Option Span) (value : α)
    (hne : names ≠ []) (h : names.findSome? Name.error? = none) :
    ∃ d, of position names disjoint value = .ok d ∧ d.IsMadeOf position disjoint names value := by
  have hposition : coverNames (Span.cover position disjoint) names =
      Span.coverAll (position :: disjoint :: places names) := by
    rw [coverNames_eq]
    exact Span.cover_assoc _ _ _
  rw [of]
  simp only [dif_neg hne]
  split
  · next heq => cases heq.symm.trans h
  · refine ⟨_, rfl, rfl, rfl, ?_, hposition, fun n => ?_⟩
    · by_cases hseveral : 1 < names.length
      · simp [isDisjoint, hseveral, Nat.succ_le_of_lt hseveral]
      · simp [isDisjoint, hseveral]
        omega
    · -- The position covers the word `disj` already.
      have hdisjoint : ∀ a, a = disjoint ∨ a = none →
          Span.cover (Span.coverAll (position :: disjoint :: places names)) a =
            Span.coverAll (position :: disjoint :: places names) := by
        rintro a (rfl | rfl)
        · exact Span.cover_coverAll_of_mem (List.mem_cons_of_mem _ List.mem_cons_self)
        · exact Span.cover_none_right _
      rw [span?_iterate_asked, Declaration.span?, Option.getD_none, hposition, hdisjoint,
        ← Span.coverAll_concat]
      · rfl
      · split
        · exact .inl rfl
        · exact .inr rfl

theorem findSome?_eq_none_iff_refused :
    names.findSome? Name.error? = none ↔ ∀ n ∈ names, ∀ f, ¬n.Refused f := by
  rw [List.findSome?_eq_none_iff]
  exact forall₂_congr fun n _ => Name.error?_eq_none_iff

/-- Names in another order are declared as well, with the same covers. -/
theorem IsMadeOf.exists_of_perm [HasSpan α] {d : Declaration α} {names' : List Name}
    (h : d.IsMadeOf position disjoint names value) (hperm : names'.Perm names) (hne : names ≠ [])
    (hnames : ∀ n ∈ names, ∀ f, ¬n.Refused f) :
    ∃ d', of position names' disjoint value = .ok d' ∧ d'.position = d.position ∧
      ∀ n, (asked^[n] d').span? = (asked^[n] d).span? := by
  have hplaces : (places names').Perm (places names) := hperm.map _
  have hne' : names' ≠ [] := by
    rintro rfl
    exact hne hperm.nil_eq.symm
  have hnames' : names'.findSome? Name.error? = none :=
    findSome?_eq_none_iff_refused.2 fun n hn => hnames n (hperm.mem_iff.1 hn)
  obtain ⟨d', hd', hmade⟩ := exists_of_eq_ok position disjoint value hne' hnames'
  refine ⟨d', hd', ?_, fun n => ?_⟩
  · rw [hmade.position_eq, h.position_eq]
    exact Span.coverAll_perm ((hplaces.cons disjoint).cons position)
  · rw [hmade.span?_eq, h.span?_eq]
    exact Span.coverAll_perm (((hplaces.append_right _).cons disjoint).cons position)

/-- Without names there is no declaration, nor is there one where some name may not be
    declared, of which the first is the error. All other names make a declaration, and in
    any order one with the same position and the same span. -/
theorem of_outcome [HasSpan α] (position disjoint : Option Span) (names : List Name)
    (value : α) :
    (names = [] →
      of position names disjoint value = .error ⟨.noNames, Span.cover position disjoint⟩) ∧
    (∀ before n behind f, names = before ++ n :: behind →
      (∀ m ∈ before, ∀ f', ¬m.Refused f') → n.Refused f →
      of position names disjoint value = .error ⟨f, some n.span⟩) ∧
    (names ≠ [] → (∀ n ∈ names, ∀ f, ¬n.Refused f) →
      ∃ d, of position names disjoint value = .ok d ∧
        d.IsMadeOf position disjoint names value ∧
        ∀ names', names'.Perm names → ∃ d', of position names' disjoint value = .ok d' ∧
          d'.position = d.position ∧ ∀ n, (asked^[n] d').span? = (asked^[n] d).span?) := by
  refine ⟨?_, ?_, fun hne hnames => ?_⟩
  · rintro rfl
    rfl
  · rintro before n behind f rfl hbefore hn
    refine of_of_error (List.findSome?_eq_some_iff.2 ⟨before, n, behind, rfl, ?_, ?_⟩)
    · exact Name.error?_eq_some_iff.2 ⟨hn, rfl⟩
    · exact fun m hm => Name.error?_eq_none_iff.2 (hbefore m hm)
  · obtain ⟨d, hd, hmade⟩ := exists_of_eq_ok position disjoint value hne
      (findSome?_eq_none_iff_refused.2 hnames)
    exact ⟨d, hd, hmade, fun names' hperm => hmade.exists_of_perm hperm hne hnames⟩

/-- No names, an at sign in front of a slash, and two names that are not in the order in
    which they were written. -/
theorem of_outcome_of_each_sort :
    let n (label : String) (column : Nat) : Name := ⟨label, .point none ⟨1, column⟩⟩
    let disj : Option Span := some ⟨some "m.als", ⟨1, 1⟩, ⟨1, 4⟩⟩
    let value : Option Span := some (.point none ⟨2, 1⟩)
    of none [] disj value = .error ⟨.noNames, disj⟩ ∧
    of none [n "a" 6, n "x@y/z" 9, n "" 16] disj value =
      .error ⟨.reservedCharacter '/', some (.point none ⟨1, 9⟩)⟩ ∧
    ∃ d, of none [n "b" 9, n "a" 6] disj value = .ok d ∧ d.isDisjoint ∧
      d.position = some ⟨some "m.als", ⟨1, 1⟩, ⟨1, 9⟩⟩ ∧
      d.asked.span? = some ⟨some "m.als", ⟨1, 1⟩, ⟨2, 1⟩⟩ ∧
      ∃ d', of none [n "a" 6, n "b" 9] disj value = .ok d' ∧ d'.position = d.position ∧
        d'.asked.span? = d.asked.span? := by
  intro n disj value
  have hvalid : ∀ m ∈ [n "b" 9, n "a" 6], ∀ f, ¬m.Refused f := by
    rw [← findSome?_eq_none_iff_refused]
    decide
  have hvalid' : ∀ m ∈ [n "a" 6], ∀ f, ¬m.Refused f := by
    rw [← findSome?_eq_none_iff_refused]
    decide
  have hrefused : (n "x@y/z" 9).Refused (.reservedCharacter '/') := .slash (by decide)
  obtain ⟨d, hd, hmade, hperm⟩ := (of_outcome none disj [n "b" 9, n "a" 6] value).2.2
    (List.cons_ne_nil _ _) hvalid
  obtain ⟨d', hd', hposition, hspan⟩ := hperm [n "a" 6, n "b" 9] (List.Perm.swap _ _ _)
  refine ⟨(of_outcome none disj [] value).1 rfl, ?_, d, hd, ?_, ?_, ?_, d', hd', hposition,
    hspan 1⟩
  · exact (of_outcome none disj _ value).2.1 [n "a" 6] _ [n "" 16] _ rfl hvalid' hrefused
  · exact hmade.isDisjoint_iff.2 ⟨rfl, Nat.le_refl 2⟩
  · rw [hmade.position_eq]
    decide
  · rw [show d.asked.span? = _ from hmade.span?_eq 1]
    decide

end Declaration

end AlloyLexical

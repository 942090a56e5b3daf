import AlloyLexical.Declaration
import Mathlib.Data.List.Basic
import Mathlib.Data.List.Nodup

/-!
# Names declared twice

A name may be declared twice by one declaration or by two, and these are looked for in
different places. Still only the labels count, one after the other and whatever
declarations they are of: looking for a name that is declared twice is looking for the
first label that there is again behind it (`Declaration.findDuplicate_eq`).

Of the labels that are there twice, this is the one that is met first
(`IsFirstRepeated`), and there is none only where no label is there twice
(`Declaration.findDuplicate_iff`).
-/

namespace AlloyLexical

namespace Declaration

variable {α : Type}

/-! ## Labels that are there again -/

/-- The first element that there is again behind it. -/
def firstRepeated : List String → Option String
  | [] => none
  | a :: as => if a ∈ as then some a else firstRepeated as

/-- Of all elements that are there twice or more often, `a` is the one that is met
    first. -/
structure IsFirstRepeated (a : String) (as : List String) : Prop where
  two_le_count : 2 ≤ as.count a
  first : ∀ b, 2 ≤ as.count b → as.idxOf a ≤ as.idxOf b

theorem mem_of_two_le_count {a : String} {as : List String} (h : 2 ≤ as.count a) : a ∈ as :=
  List.count_pos_iff.1 (Nat.lt_of_lt_of_le Nat.two_pos h)

/-- Only one element is the first that is there twice. -/
theorem IsFirstRepeated.unique {a b : String} {as : List String} (ha : IsFirstRepeated a as)
    (hb : IsFirstRepeated b as) : a = b := by
  have hidx := Nat.le_antisymm (ha.first b hb.two_le_count) (hb.first a ha.two_le_count)
  exact (List.idxOf_inj (mem_of_two_le_count ha.two_le_count)).1 hidx

/-- An element that is there again is the first one at the head of a list. -/
theorem IsFirstRepeated.head {a : String} {as : List String} (h : a ∈ as) :
    IsFirstRepeated a (a :: as) where
  two_le_count := by
    rw [List.count_cons_self]
    exact Nat.succ_le_succ (List.count_pos_iff.2 h)
  first b _ := by
    rw [List.idxOf_cons_self]
    exact Nat.zero_le _

/-- An element that is not there again takes no part. -/
theorem IsFirstRepeated.cons {a b : String} {as : List String} (h : IsFirstRepeated a as)
    (hb : b ∉ as) : IsFirstRepeated a (b :: as) where
  two_le_count := Nat.le_trans h.two_le_count (List.count_le_count_cons)
  first c hc := by
    have hne {d : String} (hd : d ∈ as) : b ≠ d := fun hbd => hb (hbd ▸ hd)
    by_cases hbc : b = c
    · -- The element `b` is there only once.
      rw [← hbc, List.count_cons_self, List.count_eq_zero.2 hb] at hc
      exact absurd hc (by decide)
    · rw [List.count_cons_of_ne hbc] at hc
      rw [List.idxOf_cons_ne as (hne (mem_of_two_le_count h.two_le_count)),
        List.idxOf_cons_ne as hbc]
      exact Nat.succ_le_succ (h.first c hc)

theorem firstRepeated_eq_none_iff (as : List String) : firstRepeated as = none ↔ as.Nodup := by
  induction as with
  | nil => simp [firstRepeated]
  | cons a as ih =>
    rw [firstRepeated, List.nodup_cons]
    split
    · next ha => simp [ha]
    · next ha => simp [ha, ih]

theorem isFirstRepeated_of_eq_some {a : String} {as : List String}
    (h : firstRepeated as = some a) : IsFirstRepeated a as := by
  induction as with
  | nil => cases h
  | cons b as ih =>
    rw [firstRepeated] at h
    split at h
    · next hb =>
      obtain rfl := Option.some.inj h
      exact .head hb
    · next hb => exact (ih h).cons hb

/-- The search finds the first element that is there twice. -/
theorem firstRepeated_eq_some_iff {a : String} {as : List String} :
    firstRepeated as = some a ↔ IsFirstRepeated a as := by
  refine ⟨isFirstRepeated_of_eq_some, fun h => ?_⟩
  rcases hfirst : firstRepeated as with _ | b
  · have hcount := List.nodup_iff_count_le_one.1 ((firstRepeated_eq_none_iff as).1 hfirst) a
    exact absurd h.two_le_count (Nat.not_le.2 (Nat.lt_succ_of_le hcount))
  · rw [(isFirstRepeated_of_eq_some hfirst).unique h]

/-! ## Declarations one after the other -/

/-- A label is looked for behind its name and then in the later declarations, and thus
    among all labels that come later. -/
theorem findAgain_or (later : List (Declaration α)) (names : List Name) :
    (findAgain later names).or (firstRepeated (later.flatMap labels)) =
      firstRepeated (names.map Name.label ++ later.flatMap labels) := by
  induction names with
  | nil => rfl
  | cons n names ih =>
    have hagain : (names.any (·.label = n.label) || later.any (·.labels.any (· = n.label))) ↔
        n.label ∈ names.map Name.label ++ later.flatMap labels := by
      simp [List.mem_flatMap]
    rw [findAgain, List.map_cons, List.cons_append, firstRepeated, ← ih]
    by_cases h : n.label ∈ names.map Name.label ++ later.flatMap labels
    · rw [if_pos h, if_pos (hagain.2 h), Option.some_or]
    · rw [if_neg h, if_neg (mt hagain.1 h)]

/-- Names that are declared twice are found by their labels. -/
theorem findDuplicate_eq (ds : List (Declaration α)) :
    findDuplicate ds = firstRepeated (ds.flatMap labels) := by
  induction ds with
  | nil => rfl
  | cons d later ih =>
    rw [findDuplicate, ih, List.flatMap_cons]
    exact findAgain_or later d.names

/-- No label is found just where all labels are different, and otherwise the one that is
    met first of all that are there twice. Which declarations the labels are of, and what
    these declare them to be, makes no difference. -/
theorem findDuplicate_iff (ds : List (Declaration α)) :
    (findDuplicate ds = none ↔ (ds.flatMap labels).Nodup) ∧
    (∀ a, findDuplicate ds = some a ↔ IsFirstRepeated a (ds.flatMap labels)) ∧
    ∀ {β : Type} (ds' : List (Declaration β)), ds'.flatMap labels = ds.flatMap labels →
      findDuplicate ds' = findDuplicate ds := by
  rw [findDuplicate_eq]
  refine ⟨firstRepeated_eq_none_iff _, fun a => firstRepeated_eq_some_iff, fun ds' h => ?_⟩
  rw [findDuplicate_eq, h]

/-- The labels `a`, `b`, `c`, `b` and `a`, of three declarations and of two. -/
theorem findDuplicate_iff_of_overlapping :
    let n (label : String) : Name := ⟨label, .point none ⟨1, 1⟩⟩
    let ds : List (Declaration Unit) :=
      [⟨none, none, [n "a", n "b"], (), none, by decide, by decide, nofun⟩,
        ⟨none, none, [n "c"], (), none, by decide, by decide, nofun⟩,
        ⟨none, none, [n "b", n "a"], (), none, by decide, by decide, nofun⟩]
    let ds' : List (Declaration Unit) :=
      [⟨none, none, [n "a"], (), none, by decide, by decide, nofun⟩,
        ⟨none, none, [n "b", n "c", n "b", n "a"], (), none, by decide, by decide, nofun⟩]
    ds'.flatMap labels = ds.flatMap labels ∧ findDuplicate ds = some "a" ∧
      IsFirstRepeated "a" (ds.flatMap labels) ∧ findDuplicate ds' = findDuplicate ds := by
  intro n ds ds'
  have hlabels : ds'.flatMap labels = ds.flatMap labels := by decide
  have hfound : findDuplicate ds = some "a" := by decide
  obtain ⟨-, hsome, hsame⟩ := findDuplicate_iff ds
  exact ⟨hlabels, hfound, (hsome "a").1 hfound, hsame ds' hlabels⟩

end Declaration

end AlloyLexical

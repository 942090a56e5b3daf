import AlloyLexical.Proofs.Position
import AlloyLexical.Span
import Mathlib.Data.List.Fold
import Mathlib.Data.List.Perm.Basic
import Mathlib.Data.String.Basic
import Mathlib.Order.Bounds.Basic
import Mathlib.Order.MinMax

/-!
# Covers of spans

Spans may be covered in any order. What a cover is made of is taken from linear orders,
the least start, the greatest stop and the smaller of two names, and a missing file or a
missing span is neutral, so that merging and covering are commutative, associative and
idempotent.

A whole list of spans thus has one cover, `Span.coverAll`, however the list is ordered
(`Span.coverAll_perm`), and it covers each of them already
(`Span.cover_coverAll_of_mem`). All that counts is which spans there are
(`Span.coverAll_eq_of_mem_iff`): neither the order in which they are covered two by two
nor how often each of them comes up makes a difference (`Span.Grouping.covered_eq`).

The ends of a merged span are those of the two, in the reading order, and it lies between
any two positions that both of them lie between (`Span.isLeastCover_merge`). This holds of
all spans, also of those that stop in front of where they start.
-/

namespace AlloyLexical

namespace Span

/-! ## Two spans -/

theorem leastName_eq_min (a b : String) : leastName a b = min a b := (min_def a b).symm

instance : Std.Commutative leastName where
  comm a b := by rw [leastName_eq_min, leastName_eq_min, min_comm]

instance : Std.Associative leastName where
  assoc a b c := by simp only [leastName_eq_min, min_assoc]

instance : Std.Commutative merge where
  comm a b := by
    have hfile : Option.merge leastName a.file b.file = Option.merge leastName b.file a.file :=
      Std.Commutative.comm a.file b.file
    rw [merge, merge, hfile, min_comm, max_comm]

instance : Std.Associative merge where
  assoc a b c := by
    have hfile : Option.merge leastName (Option.merge leastName a.file b.file) c.file =
        Option.merge leastName a.file (Option.merge leastName b.file c.file) :=
      Std.Associative.assoc a.file b.file c.file
    rw [merge, merge, merge, merge, hfile, min_assoc, max_assoc]

instance : Std.IdempotentOp merge := ⟨merge_self⟩

instance : Std.Commutative cover := inferInstanceAs (Std.Commutative (Option.merge merge))

instance : Std.Associative cover := inferInstanceAs (Std.Associative (Option.merge merge))

instance : Std.IdempotentOp cover := inferInstanceAs (Std.IdempotentOp (Option.merge merge))

theorem merge_comm (a b : Span) : a.merge b = b.merge a := Std.Commutative.comm a b

theorem merge_assoc (a b c : Span) : (a.merge b).merge c = a.merge (b.merge c) :=
  Std.Associative.assoc a b c

theorem cover_comm (a b : Option Span) : cover a b = cover b a := Std.Commutative.comm a b

theorem cover_assoc (a b c : Option Span) : cover (cover a b) c = cover a (cover b c) :=
  Std.Associative.assoc a b c

theorem cover_self (a : Option Span) : cover a a = a := Std.IdempotentOp.idempotent a

/-! ## Ends and files -/

/-- Whether a span lies between two positions, these included. -/
def Within (a : Span) (p q : Position) : Prop := p ≤ a.start ∧ a.stop ≤ q

theorem within_merge_iff {a b : Span} {p q : Position} :
    (a.merge b).Within p q ↔ a.Within p q ∧ b.Within p q := by
  rw [Within, Within, Within, merge, le_min_iff, max_le_iff]
  exact and_and_and_comm

theorem file_merge_eq_none_iff {a b : Span} :
    (a.merge b).file = none ↔ a.file = none ∧ b.file = none := by
  obtain ⟨_ | f, -, -⟩ := a <;> obtain ⟨_ | f', -, -⟩ := b <;> simp [merge]

/-- The file of a merged span is the least name there is. -/
theorem isLeast_file_merge {a b : Span} {f : String} (h : f ∈ (a.merge b).file) :
    IsLeast {f' | f' ∈ a.file ∨ f' ∈ b.file} f := by
  obtain ⟨_ | fa, sa, ea⟩ := a <;> obtain ⟨_ | fb, sb, eb⟩ := b
  · cases h
  · cases h
    simp [IsLeast, lowerBounds]
  · cases h
    simp [IsLeast, lowerBounds]
  · obtain rfl : leastName fa fb = f := Option.some.inj h
    have hpair : {f' | f' ∈ some fa ∨ f' ∈ some fb} = {fa, fb} := by
      ext f'
      simp [eq_comm]
    rw [leastName_eq_min]
    exact hpair ▸ isLeast_pair

/-- The span `c` covers both of two spans and no more. It starts where the first of them
    starts and stops where the last one stops, and it belongs to the first of the files that
    they belong to. -/
structure IsLeastCover (a b c : Span) : Prop where
  start : IsLeast {a.start, b.start} c.start
  stop : IsGreatest {a.stop, b.stop} c.stop
  within_iff : ∀ p q, c.Within p q ↔ a.Within p q ∧ b.Within p q
  file : ∀ f ∈ c.file, IsLeast {f' | f' ∈ a.file ∨ f' ∈ b.file} f
  file_eq_none_iff : c.file = none ↔ a.file = none ∧ b.file = none

theorem isLeastCover_merge (a b : Span) : IsLeastCover a b (a.merge b) where
  start := isLeast_pair
  stop := isGreatest_pair
  within_iff _ _ := within_merge_iff
  file _ := isLeast_file_merge
  file_eq_none_iff := file_merge_eq_none_iff

/-! ## Lists of spans -/

/-- The least span that covers those of the list that are there. -/
def coverAll (spans : List (Option Span)) : Option Span := spans.foldr cover none

@[simp] theorem coverAll_nil : coverAll [] = none := rfl

@[simp] theorem coverAll_cons (a : Option Span) (spans : List (Option Span)) :
    coverAll (a :: spans) = cover a (coverAll spans) := rfl

theorem coverAll_perm {spans spans' : List (Option Span)} (h : spans.Perm spans') :
    coverAll spans = coverAll spans' := h.foldr_op_eq

theorem coverAll_concat (spans : List (Option Span)) (a : Option Span) :
    coverAll (spans ++ [a]) = cover (coverAll spans) a := by
  rw [coverAll_perm List.perm_append_comm, List.singleton_append, coverAll_cons, cover_comm]

/-- What is among the spans is covered with them. -/
theorem cover_coverAll_of_mem {spans : List (Option Span)} {a : Option Span} (h : a ∈ spans) :
    cover (coverAll spans) a = coverAll spans := by
  obtain ⟨before, behind, rfl⟩ := List.append_of_mem h
  rw [coverAll_perm List.perm_middle, coverAll_cons, cover_comm, ← cover_assoc, cover_self]

/-- What is among the spans, or is missing, is covered with them. -/
theorem cover_coverAll_of_subset {spans spans' : List (Option Span)}
    (h : ∀ a : Span, some a ∈ spans' → some a ∈ spans) :
    cover (coverAll spans) (coverAll spans') = coverAll spans := by
  induction spans' with
  | nil => exact cover_none_right _
  | cons a spans' ih =>
    have hrest := ih fun b hb => h b (List.mem_cons_of_mem _ hb)
    have ha : cover (coverAll spans) a = coverAll spans := by
      rcases a with _ | a
      · exact cover_none_right _
      · exact cover_coverAll_of_mem (h a List.mem_cons_self)
    rw [coverAll_cons, ← cover_assoc, ha, hrest]

theorem coverAll_eq_of_mem_iff {spans spans' : List (Option Span)}
    (h : ∀ a : Span, some a ∈ spans ↔ some a ∈ spans') : coverAll spans = coverAll spans' :=
  calc
    coverAll spans = cover (coverAll spans) (coverAll spans') :=
      (cover_coverAll_of_subset fun a => (h a).2).symm
    _ = cover (coverAll spans') (coverAll spans) := cover_comm _ _
    _ = coverAll spans' := cover_coverAll_of_subset fun a => (h a).1

theorem coverAll_append (spans spans' : List (Option Span)) :
    coverAll (spans ++ spans') = cover (coverAll spans) (coverAll spans') := by
  induction spans with
  | nil => exact (cover_none_left _).symm
  | cons a spans ih => rw [List.cons_append, coverAll_cons, coverAll_cons, ih, cover_assoc]

theorem foldl_cover_eq (spans : List (Option Span)) : spans.foldl cover none = coverAll spans :=
  List.foldl_eq_foldr

/-! ## Groupings -/

/-- Some spans, any of which may be missing, as they are put together two by two. -/
inductive Grouping where
  | single (a : Option Span)
  | pair (g g' : Grouping)

namespace Grouping

/-- The spans of a grouping, from left to right. -/
def spans : Grouping → List (Option Span)
  | single a => [a]
  | pair g g' => g.spans ++ g'.spans

/-- The span that comes of covering two by two. -/
def covered : Grouping → Option Span
  | single a => a
  | pair g g' => cover g.covered g'.covered

theorem covered_eq (g : Grouping) : g.covered = coverAll g.spans := by
  induction g with
  | single a => exact (cover_none_right a).symm
  | pair g g' ih ih' => rw [covered, spans, coverAll_append, ih, ih']

end Grouping

/-! ## The semilattice -/

/-- Merging makes a semilattice of the spans, and covering one of those that may be
    missing, with the missing span as its neutral element. So one and the same span comes
    of covering the spans of a list, in whatever order and groups, and however often each;
    and of two spans it is the least that covers both. -/
theorem cover_semilattice :
    (∀ a b : Span, a.merge b = b.merge a) ∧
    (∀ a b c : Span, (a.merge b).merge c = a.merge (b.merge c)) ∧
    (∀ a : Span, a.merge a = a) ∧
    (∀ a b, cover a b = cover b a) ∧
    (∀ a b c, cover (cover a b) c = cover a (cover b c)) ∧
    (∀ a, cover a a = a) ∧
    (∀ a, cover none a = a ∧ cover a none = a) ∧
    (∀ (spans : List (Option Span)) (g : Grouping),
      (∀ a : Span, some a ∈ g.spans ↔ some a ∈ spans) → g.covered = spans.foldl cover none) ∧
    ∀ a b, IsLeastCover a b (a.merge b) := by
  refine ⟨merge_comm, merge_assoc, merge_self, cover_comm, cover_assoc, cover_self,
    fun a => ⟨cover_none_left a, cover_none_right a⟩, fun spans g h => ?_, isLeastCover_merge⟩
  rw [g.covered_eq, foldl_cover_eq]
  exact coverAll_eq_of_mem_iff h

/-- Three spans, one of which stops in front of where it starts, one of which belongs to no
    file, and a missing one. -/
theorem cover_semilattice_of_three :
    let a : Span := ⟨some "b.als", ⟨3, 1⟩, ⟨1, 9⟩⟩
    let b : Span := ⟨none, ⟨2, 7⟩, ⟨2, 9⟩⟩
    let c : Span := ⟨some "a.als", ⟨2, 5⟩, ⟨4, 1⟩⟩
    let g : Grouping := .pair (.pair (.single c) (.single b)) (.pair (.single a) (.single b))
    let spans := [some a, none, some b, some c]
    (∀ s : Span, some s ∈ g.spans ↔ some s ∈ spans) ∧ g.covered = spans.foldl cover none ∧
      g.covered = some ⟨some "a.als", ⟨2, 5⟩, ⟨4, 1⟩⟩ ∧ IsLeastCover a b (a.merge b) ∧
      a.merge b = ⟨some "b.als", ⟨2, 7⟩, ⟨2, 9⟩⟩ := by
  intro a b c g spans
  have hmem : ∀ s : Span, some s ∈ g.spans ↔ some s ∈ spans := by
    intro s
    simp only [g, spans, Grouping.spans, List.mem_append, List.mem_cons]
    grind
  obtain ⟨-, -, -, -, -, -, -, hgroup, hcover⟩ := cover_semilattice
  exact ⟨hmem, hgroup spans g hmem, by decide, hcover a b, by decide⟩

end Span

end AlloyLexical

import AlloyLexical.Source

/-!
# Counted readings

A source that keeps count of how often it has been read. Every reading counts,
also one that fails or that gives an end token again.
-/

namespace AlloyLexical

/-- A state of a source, and the number of readings so far. -/
structure Counted (σ : Type) where
  state : σ
  readings : Nat

namespace Counted

/-- A source nobody has read yet. -/
def fresh {σ : Type} (s : σ) : Counted σ := ⟨s, 0⟩

/-- The source with its readings counted. -/
def source {ε σ : Type} (S : Source ε σ) : Source ε (Counted σ) where
  read s := ((S.read s.state).1, ⟨(S.read s.state).2, s.readings + 1⟩)
  left s := S.left s.state
  progress {s s' t} hfinishes h ht := by
    obtain ⟨hread, rfl⟩ := Prod.mk.inj h
    exact S.progress (hfinishes.map state (fun _ => id) fun _ => rfl) (Prod.ext hread rfl) ht

end Counted

end AlloyLexical

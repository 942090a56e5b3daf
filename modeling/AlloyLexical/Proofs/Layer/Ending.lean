import AlloyLexical.Proofs.Layer.Rewriting
import AlloyLexical.Proofs.Source.Readings

/-!
# Stacks at the end of their source

When a stack hands out an end token, each of its layers remembers this token at
most (`Stack.ended`). The layer of commands does remember it and does not read
its source again. So a stack with this layer in it stays where it is, and goes on
handing out the end token, whatever its source would do (`Stack.read_ended`).
Without this layer the stack reads its source again, and goes on handing out the
end token as long as its source does (`Stack.gives_ended`). So a stack keeps to
what is expected of its source (`Stack.gives_rewrite`).

All a layer does to its source is to read it (`Layer.reaches_pull`), and so does
a stack (`Stack.reaches_base`).
-/

namespace AlloyLexical

variable {σ : Type} {S : Source Error σ}

/-! ## Layers read their source -/

theorem Outlook.reaches_read {ε : Type} (S : Source ε σ) (q : Outlook) (s : σ) :
    S.Reaches s (q.read S s).state := by
  have key : ∀ seen, S.Reaches s (q.readFrom S seen s).state := by
    intro seen
    fun_induction readFrom S q seen s with
    | case1 q seen s e s' hread => exact .single (by rw [hread])
    | case2 q seen s t s' hread => exact .single (by rw [hread])
    | case3 q seen s t s' hread q' hq hlt ih => exact .head (by rw [hread]) ih
    | case4 q seen s t s' hread => exact .single (by rw [hread])
  exact key []

namespace Layer

theorem reaches_settle (l : Layer) (last : Option TokenKind) (t : Token) (ts : List Token)
    (s : σ) : S.Reaches s (l.settle S last t ts s).2.2 := by
  rw [settle]
  split
  · exact .refl
  · next q _ =>
    dsimp only
    split
    · exact q.reaches_read S s
    · exact q.reaches_read S s

/-- A layer leads its source to where reading leads it. -/
theorem reaches_pull (l : Layer) (m : Memory) (s : σ) : S.Reaches s (l.pull S m s).2.2 := by
  rw [pull]
  split
  · exact l.reaches_settle m.last _ _ s
  · have hreach := S.reaches_read s
    split
    · next hread => rwa [hread] at hreach
    · next t s' hread =>
      rw [hread] at hreach
      exact hreach.trans (l.reaches_settle m.last t [] s')

theorem reaches_of_reaches_atop {l : Layer} {st st' : Memory × σ} (h : (l.atop S).Reaches st st') :
    S.Reaches st.2 st'.2 := by
  induction h with
  | refl => exact .refl
  | tail _ hread ih =>
    rw [← hread]
    exact ih.trans (l.reaches_pull _ _)

/-! ## Layers at the end -/

/-- A layer that has kept an end token hands it out again. -/
theorem pull_of_keepsEnd {l : Layer} {z : Token} (hkeeps : l.keepsEnd) (hz : z.kind = .eof)
    (s : σ) : l.pull S (l.endMemory z) s = (.ok z, l.endMemory z, s) := by
  have hpull : l.pull S (l.endMemory z) s = l.settle S (some .eof) z [] s := by
    rw [endMemory, if_pos hkeeps]
    rfl
  rw [hpull]
  exact l.settle_of_eof _ s hz

/-- A layer whose source gives the end token once more hands it out once more. It
    reads its source for it if it has not kept one. -/
theorem pull_endMemory {z : Token} {s s' : σ} (h : S.read s = (.ok z, s')) (hz : z.kind = .eof)
    (l : Layer) :
    l.pull S (l.endMemory z) s = (.ok z, l.endMemory z, if l.keepsEnd then s else s') := by
  by_cases hkeeps : l.keepsEnd
  · rw [if_pos hkeeps]
    exact pull_of_keepsEnd hkeeps hz s
  · have hpull : l.pull S (l.endMemory z) s = l.settle S (some .eof) z [] s' := by
      rw [endMemory, if_neg hkeeps, pull, h]
    rw [hpull, if_neg hkeeps]
    exact l.settle_of_eof _ s' hz

/-- A layer at its end goes on giving the end token if its source does. -/
theorem gives_endMemory {z : Token} (hz : z.kind = .eof) (l : Layer) {s : σ}
    (h : S.Gives s [] z) : (l.atop S).Gives (l.endMemory z, s) [] z := by
  -- The memory stays as it is, wherever reading takes the source.
  refine Source.gives_nil_of_invariant
    (P := fun st => st.1 = l.endMemory z ∧ S.Gives st.2 [] z) ?_ ⟨rfl, h⟩
  rintro ⟨_, s⟩ ⟨rfl, h⟩
  obtain ⟨s', hread, hrest⟩ := Source.gives_iff.1 h
  refine ⟨_, pull_endMemory hread hz l, rfl, ?_⟩
  dsimp only
  split
  · exact h
  · exact hrest

end Layer

/-! ## Stacks -/

namespace Stack

/-- A stack with the layer of commands in it goes on handing out an end token. -/
theorem read_ended {z : Token} (hz : z.kind = .eof) (s : σ) {ls : List Layer}
    (hls : .commands ∈ ls) : (source S ls).read (ended z s ls) = (.ok z, ended z s ls) := by
  induction ls with
  | nil => cases hls
  | cons l ls ih =>
    rcases List.mem_cons.1 hls with rfl | hls
    · exact Layer.pull_of_keepsEnd (l := .commands) rfl hz _
    · exact (Layer.pull_endMemory (ih hls) hz l).trans (by rw [ite_self]; rfl)

/-- A stack at its end goes on giving the end token if its source does. -/
theorem gives_ended {z : Token} (hz : z.kind = .eof) {s : σ} (h : S.Gives s [] z)
    (ls : List Layer) : (source S ls).Gives (ended z s ls) [] z := by
  induction ls with
  | nil => exact h
  | cons l ls ih => exact Layer.gives_endMemory hz l ih

/-- Any layers in any order keep to the contract of a source. Where their source
    gives some tokens that are no end tokens and then one end token for ever, so
    do they: the end token is the same, and the tokens before it, which are those
    the layers make of theirs, are no more in number and no end tokens either. No
    reading fails. -/
theorem gives_rewrite {s : σ} {ts : List Token} {z : Token} (hts : ∀ t ∈ ts, t.kind ≠ .eof)
    (hz : z.kind = .eof) (h : S.Gives s ts z) (ls : List Layer) :
    (rewrite ls ts).length ≤ ts.length ∧ (∀ t ∈ rewrite ls ts, t.kind ≠ .eof) ∧
      (source S ls).Gives (fresh s ls) (rewrite ls ts) z := by
  obtain ⟨s', hyields, hend⟩ := h.exists_yields hts hz
  have hrun := yields_ended hyields ls
  exact ⟨length_rewrite_le ls ts, hrun.ne_eof, hrun.gives (gives_ended hz hend ls)⟩

/-- Two layers of signs, with others between and below them, over a source that
    never stays in its state. The upper one has a sign left to take up. -/
theorem gives_rewrite_of_two_signs :
    let t (kind : TokenKind) (payload : Option Payload) (column : Nat) : Token :=
      ⟨kind, payload, .point none ⟨1, column⟩⟩
    let ts := [t .minus none 1, t .minus none 2, t .number (some (.number 3)) 3]
    let z := t .eof none 4
    let S := Counted.source (TokenList.source Error)
    let s := Counted.fresh ⟨ts, z.span⟩
    let ls := [.signs, .declarations, .signs, .operators]
    let out := [⟨.number, some (.number 3), ⟨none, ⟨1, 1⟩, ⟨1, 3⟩⟩⟩]
    (∀ t ∈ ts, t.kind ≠ .eof) ∧ z.kind = .eof ∧ S.Gives s ts z ∧ out.length ≤ ts.length ∧
      (∀ t ∈ out, t.kind ≠ .eof) ∧ (source S ls).Gives (fresh s ls) out z := by
  intro t ts z S s ls out
  have hts : ∀ t ∈ ts, t.kind ≠ .eof := by decide
  have hgives : S.Gives s ts z := Counted.gives (TokenList.gives Error hts z.span) 0
  have hout : rewrite ls ts = out := by decide +kernel
  exact ⟨hts, rfl, hgives, hout ▸ gives_rewrite hts rfl hgives ls⟩

/-- A stack leads its source to where reading leads it. -/
theorem reaches_base {ls : List Layer} {st st' : Stack σ ls} (h : (source S ls).Reaches st st') :
    S.Reaches st.base st'.base := by
  induction ls with
  | nil => exact h
  | cons l ls ih => exact ih (Layer.reaches_of_reaches_atop h)

end Stack

end AlloyLexical

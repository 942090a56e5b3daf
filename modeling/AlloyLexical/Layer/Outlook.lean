import AlloyLexical.Source

/-!
# Looking ahead

A layer that holds a token may have to see some of the tokens after it before it
can say what becomes of the token. What it still waits for is its *outlook*: a
state that each further token either advances to another outlook or settles.
Nothing is looked at once the matter is settled, so a layer looks ahead just as
far as it must.

The end token settles every matter (`advance_eof`). Looking ahead therefore
never reads past the end of a source, and stops if there is one.

* `Outlook.through` goes over tokens that are at hand already;
* `Outlook.read` reads a source until the matter is settled. What it comes to is a
  `View`: the tokens seen, and the error if there is one in the way.
-/

namespace AlloyLexical

/-- What a layer waits for. -/
inductive Outlook where
  /-- Any token. -/
  | one
  /-- Two tokens, whatever they are. -/
  | two
  /-- A slash, and then any token. -/
  | member
  /-- An arrow, and then any token. -/
  | arrow
  /-- The head of a declaration, from its beginning. -/
  | head
  /-- The head of a declaration, after the word `private`. -/
  | disposition
  /-- A name in the head of a declaration. -/
  | name
  /-- What follows a name in the head of a declaration. -/
  | separator
deriving DecidableEq

namespace Outlook

/-- The outlook after a token of the given kind; none if the matter is then
    settled. -/
def advance : Outlook → TokenKind → Option Outlook
  | one, _ => none
  | two, .eof => none
  | two, _ => some one
  | member, .slash => some one
  | member, _ => none
  | arrow, .bareArrow => some one
  | arrow, _ => none
  | head, .keyword .privateKw => some disposition
  | head, .keyword .disj | head, .keyword .part | head, .keyword .exh => some name
  | head, .ident => some separator
  | head, _ => none
  | disposition, .keyword .disj | disposition, .keyword .part | disposition, .keyword .exh =>
    some name
  | disposition, .ident => some separator
  | disposition, _ => none
  | name, .ident => some separator
  | name, _ => none
  | separator, .comma => some name
  | separator, _ => none

@[simp] theorem advance_eof (q : Outlook) : q.advance .eof = none := by cases q <;> rfl

theorem ne_eof_of_advance {q q' : Outlook} {kind : TokenKind} (h : q.advance kind = some q') :
    kind ≠ .eof := by
  rintro rfl
  rw [advance_eof] at h
  cases h

/-- The outlook after some tokens; none if they settle the matter. -/
def through (q : Outlook) : List Token → Option Outlook
  | [] => some q
  | t :: ts =>
    match q.advance t.kind with
    | none => none
    | some q' => q'.through ts

@[simp] theorem through_nil (q : Outlook) : q.through [] = some q := rfl

theorem through_append (q : Outlook) (ts us : List Token) :
    q.through (ts ++ us) = (q.through ts).bind (·.through us) := by
  induction ts generalizing q with
  | nil => rfl
  | cons t ts ih =>
    simp only [List.cons_append, through]
    split
    · rfl
    · exact ih _

theorem ne_eof_of_through {q q' : Outlook} {ts : List Token} (h : q.through ts = some q') :
    ∀ t ∈ ts, t.kind ≠ .eof := by
  fun_induction through q ts with
  | case1 => exact List.forall_mem_nil _
  | case2 => cases h
  | case3 q t ts q₁ hq ih => exact List.forall_mem_cons.2 ⟨ne_eof_of_advance hq, ih h⟩

/-! ## Reading ahead -/

/-- What comes of reading a source ahead: the tokens it has handed out, the error
    that it has failed with, if it has, and the state it is left in. -/
structure View (ε σ : Type) where
  tokens : List Token
  failure : Option ε
  state : σ

variable {ε σ : Type} (S : Source ε σ)

/-- The view up to what settles the matter, behind the tokens of `seen`, which are
    in reverse order. -/
def readFrom (q : Outlook) (seen : List Token) (s : σ) : View ε σ :=
  match S.read s with
  | (.error e, s') => ⟨seen.reverse, some e, s'⟩
  | (.ok t, s') =>
    match q.advance t.kind with
    | none => ⟨(t :: seen).reverse, none, s'⟩
    | some q' =>
      if S.left s' < S.left s then q'.readFrom (t :: seen) s'
      -- There is no end to come to.
      else ⟨(t :: seen).reverse, none, s'⟩
termination_by S.left s

/-- The view of a source up to what settles the matter. -/
def read (q : Outlook) (s : σ) : View ε σ := q.readFrom S [] s

theorem readFrom_eq (q : Outlook) (seen : List Token) (s : σ) :
    q.readFrom S seen s = { q.read S s with tokens := seen.reverse ++ (q.read S s).tokens } := by
  have key : ∀ (before seen : List Token) (s : σ),
      q.readFrom S (seen ++ before) s =
        { q.readFrom S seen s with
          tokens := before.reverse ++ (q.readFrom S seen s).tokens } := by
    intro before seen s
    fun_induction readFrom S q seen s with
    | case1 q seen s e s' h =>
      rw [readFrom, h]
      simp
    | case2 q seen s t s' h hq =>
      rw [readFrom, h]
      simp [hq]
    | case3 q seen s t s' h q' hq hlt ih =>
      rw [readFrom, h]
      simp only [hq, hlt, if_true]
      exact ih
    | case4 q seen s t s' h q' hq hlt =>
      rw [readFrom, h]
      simp [hq, hlt]
  exact key seen [] s

variable {S} {q q' : Outlook} {s s' : σ} {t : Token}

theorem read_of_error {e : ε} (h : S.read s = (.error e, s')) (q : Outlook) :
    q.read S s = ⟨[], some e, s'⟩ := by
  rw [read, readFrom, h]
  rfl

theorem read_of_none (h : S.read s = (.ok t, s')) (hq : q.advance t.kind = none) :
    q.read S s = ⟨[t], none, s'⟩ := by
  rw [read, readFrom, h]
  simp only [hq]
  rfl

/-- A source that finishes is read on. -/
theorem read_of_some (hs : Source.Finishes S.read s) (h : S.read s = (.ok t, s'))
    (hq : q.advance t.kind = some q') :
    q.read S s = { q'.read S s' with tokens := t :: (q'.read S s').tokens } := by
  rw [read, readFrom, h]
  simp only [hq, S.progress hs h (ne_eof_of_advance hq), if_true]
  exact readFrom_eq S q' [t] s'

/-- If there is an end behind what is seen, or in it, there is one to come to. -/
theorem finishes_of_view (h : Source.Finishes S.read (q.read S s).state ∨
    (q.read S s).failure.isSome ∨ ∃ t ∈ (q.read S s).tokens, t.kind = .eof) :
    Source.Finishes S.read s := by
  -- The tokens seen before are no end tokens, so that `t` is where one is seen at last.
  have hlast : ∀ {seen : List Token} {s s' : σ} {t : Token}, (∀ t ∈ seen, t.kind ≠ .eof) →
      S.read s = (.ok t, s') →
      (Source.Finishes S.read s' ∨ (none : Option ε).isSome ∨
        ∃ u ∈ (t :: seen).reverse, u.kind = .eof) →
      Source.Finishes S.read s := by
    rintro seen s s' t hseen hread (hs' | hnone | ⟨u, hu, hend⟩)
    · exact Source.finishes_of_read hread hs'
    · cases hnone
    · rw [List.mem_reverse, List.mem_cons] at hu
      obtain rfl := hu.resolve_right fun hu => hseen u hu hend
      exact .done hread hend
  have key : ∀ (q : Outlook) (seen : List Token) (s : σ), (∀ t ∈ seen, t.kind ≠ .eof) →
      (Source.Finishes S.read (q.readFrom S seen s).state ∨
        (q.readFrom S seen s).failure.isSome ∨
        ∃ t ∈ (q.readFrom S seen s).tokens, t.kind = .eof) → Source.Finishes S.read s := by
    intro q seen s hseen h
    fun_induction readFrom S q seen s with
    | case1 q seen s e s' hread => exact .done hread trivial
    | case2 q seen s t s' hread hq => exact hlast hseen hread h
    | case3 q seen s t s' hread q' hq hlt ih =>
      have ht : t.kind ≠ .eof := ne_eof_of_advance hq
      exact .next hread ht (ih (List.forall_mem_cons.2 ⟨ht, hseen⟩) h)
    | case4 q seen s t s' hread q' hq hlt => exact hlast hseen hread h
  exact key q [] s (List.forall_mem_nil _) h

/-- The tokens seen are taken from those that were left, if there is an end. -/
theorem countToEnd_view_le (hs : Source.Finishes S.read s) (q : Outlook)
    (h : (q.read S s).failure = none) :
    Token.countToEnd (q.read S s).tokens (S.left (q.read S s).state) ≤ S.left s := by
  induction hs generalizing q with
  | @done s s' a hread ha =>
    rcases a with e | t
    · rw [read_of_error hread] at h
      cases h
    · have ht : t.kind = .eof := ha
      rw [read_of_none hread (by rw [ht, advance_eof]), Token.countToEnd, if_pos ht]
      exact Nat.zero_le _
  | @next s s' t hread ht hs' ih =>
    have hs : Source.Finishes S.read s := .next hread ht hs'
    rcases hq : q.advance t.kind with _ | q'
    · rw [read_of_none hread hq, Token.countToEnd_cons_of_ne _ _ ht]
      exact S.progress hs hread ht
    · rw [read_of_some hs hread hq] at h ⊢
      rw [Token.countToEnd_cons_of_ne _ _ ht]
      exact Nat.lt_of_le_of_lt (ih q' h) (S.progress hs hread ht)

end Outlook

end AlloyLexical

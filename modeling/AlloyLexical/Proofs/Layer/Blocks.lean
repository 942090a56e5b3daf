import AlloyLexical.Proofs.Filter.Staging
import AlloyLexical.Proofs.Layer.Clauses

/-!
# Blocks of named commands

A *block* is a name and all of the clauses behind it, of which there is one at least
(`Commands.BlockAt`). Blocks can be told from the tokens alone, before anything is
turned around:

* a name has at most one block (`Commands.BlockAt.unique`);
* two blocks have no token in common (`Commands.BlockAt.apart`), as there are no
  names in clauses.

The layer of commands has a window of three tokens, in which it finds the same name
again and again. What it makes of all tokens is nevertheless said block by block
(`Commands.run_turns_blocks`): the tokens of each block are turned around where they
stand, and every other token stays as it is and where it is.
-/

namespace AlloyLexical

namespace Commands

/-! ## Blocks -/

/-- At the place `i` there is a block: a name with the clauses `cs` behind it, and
    behind these there is no other clause. -/
structure BlockAt (ts : List Token) (i : Nat) (name : Token) (cs : List (Token × Token)) :
    Prop where
  isName : name.kind = .ident
  ne_nil : cs ≠ []
  clauses : ∀ c ∈ cs, IsClause c
  found : ∃ behind, ts.drop i = name :: (written cs ++ behind) ∧ ¬StartsClause behind

/-- Two tokens are put in place of each clause. -/
theorem length_pairs (f g : Token × Token → Token) (cs : List (Token × Token)) :
    (cs.flatMap fun c => [f c, g c]).length = 2 * cs.length := by
  induction cs with
  | nil => rfl
  | cons c cs ih =>
    rw [List.flatMap_cons, List.length_append, ih, List.length_cons]
    exact Nat.add_comm 2 _

theorem length_written (cs : List (Token × Token)) : (written cs).length = 2 * cs.length :=
  length_pairs Prod.fst Prod.snd cs

theorem length_turned (name : Token) (cs : List (Token × Token)) :
    (turned name cs).length = 2 * cs.length := length_pairs _ _ cs

/-- A block is as long when it is turned around. -/
theorem length_block (name : Token) (cs : List (Token × Token)) :
    (turned name cs ++ [name]).length = (name :: written cs).length := by
  rw [List.length_append, List.length_singleton, List.length_cons, length_turned, length_written]

theorem startsClause_written {c : Token × Token} (hc : IsClause c) (cs : List (Token × Token))
    (ts : List Token) : StartsClause (written (c :: cs) ++ ts) := hc

/-- The clauses that some tokens begin with are told by the tokens. -/
theorem clauses_unique {cs cs' : List (Token × Token)} {ts ts' : List Token}
    (h : written cs ++ ts = written cs' ++ ts') (hcs : ∀ c ∈ cs, IsClause c)
    (hcs' : ∀ c ∈ cs', IsClause c) (hts : ¬StartsClause ts) (hts' : ¬StartsClause ts') :
    cs = cs' := by
  induction cs generalizing cs' with
  | nil =>
    rcases cs' with _ | ⟨c', cs'⟩
    · rfl
    · obtain rfl : ts = _ := h
      exact absurd (startsClause_written (hcs' c' List.mem_cons_self) cs' ts') hts
  | cons c cs ih =>
    rcases cs' with _ | ⟨c', cs'⟩
    · obtain rfl : _ = ts' := h
      exact absurd (startsClause_written (hcs c List.mem_cons_self) cs ts) hts'
    · obtain ⟨hcolon, hrest⟩ := List.cons.inj h
      obtain ⟨hcommand, hrest⟩ := List.cons.inj hrest
      rw [Prod.ext hcolon hcommand,
        ih hrest (List.forall_mem_cons.1 hcs).2 (List.forall_mem_cons.1 hcs').2]

namespace BlockAt

variable {ts : List Token} {i j : Nat} {name name' : Token} {cs cs' : List (Token × Token)}

/-- At one place there is one block at most. -/
theorem unique (h : BlockAt ts i name cs) (h' : BlockAt ts i name' cs') :
    name = name' ∧ cs = cs' := by
  obtain ⟨behind, hdrop, hbehind⟩ := h.found
  obtain ⟨behind', hdrop', hbehind'⟩ := h'.found
  obtain ⟨hname, hrest⟩ := List.cons.inj (hdrop.symm.trans hdrop')
  exact ⟨hname, clauses_unique hrest h.clauses h'.clauses hbehind hbehind'⟩

/-- A block ends before the next one begins. -/
theorem apart (h : BlockAt ts i name cs) (h' : BlockAt ts j name' cs') (hij : i < j) :
    i + 2 * cs.length < j := by
  obtain ⟨behind, hdrop, -⟩ := h.found
  obtain ⟨behind', hdrop', -⟩ := h'.found
  by_contra hle
  -- Otherwise the second name would stand in a clause of the first one.
  obtain ⟨k, rfl⟩ : ∃ k, j = i + (k + 1) := ⟨j - i - 1, by omega⟩
  have hk : k < (written cs).length := by
    rw [length_written]
    omega
  have hmem : name' ∈ written cs := by
    rw [← List.drop_drop, hdrop, List.drop_succ_cons, List.drop_append_of_le_length hk.le,
      List.drop_eq_getElem_cons hk] at hdrop'
    rw [← (List.cons.inj hdrop').1]
    exact List.getElem_mem hk
  exact ne_ident_of_mem_written h.clauses hmem h'.isName

/-- Where there is a block, a command is named. -/
theorem namesCommand {t : Token} (h : BlockAt (t :: ts) 0 name cs) : NamesCommand (t :: ts) := by
  obtain ⟨behind, hdrop, -⟩ := h.found
  obtain ⟨c, cs, rfl⟩ := List.exists_cons_of_ne_nil h.ne_nil
  obtain ⟨rfl, rfl⟩ := List.cons.inj hdrop
  exact ⟨h.isName, startsClause_written (h.clauses c List.mem_cons_self) cs behind⟩

/-- A block is told by the tokens from its place on. -/
theorem congr {us : List Token} (h : BlockAt ts i name cs) (hdrop : ts.drop i = us.drop j) :
    BlockAt us j name cs := ⟨h.isName, h.ne_nil, h.clauses, hdrop ▸ h.found⟩

end BlockAt

/-! ## Turning blocks around -/

/-- What holds of no tokens, and of tokens behind one that names no command or behind
    a block if it holds of those, holds of all. -/
@[elab_as_elim]
theorem block_induction {motive : List Token → Prop} (nil : motive [])
    (other : ∀ t ts, ¬NamesCommand (t :: ts) → motive ts → motive (t :: ts))
    (block : ∀ name cs ts, BlockAt (name :: (written cs ++ ts)) 0 name cs → motive ts →
      motive (name :: (written cs ++ ts)))
    (ts : List Token) : motive ts := by
  induction hn : ts.length using Nat.strong_induction_on generalizing ts with
  | _ n ih =>
    rcases ts with _ | ⟨t, ts⟩
    · exact nil
    by_cases hname : NamesCommand (t :: ts)
    · obtain ⟨cs, us, rfl, hcs, hus⟩ := exists_clauses ts
      have hne : cs ≠ [] := by
        rintro rfl
        exact hus hname.2
      refine block t cs us ⟨hname.1, hne, hcs, us, rfl, hus⟩ (ih us.length ?_ us rfl)
      rw [← hn, List.length_cons, List.length_append]
      omega
    · exact other t ts hname (ih ts.length (by rw [← hn]; exact Nat.lt_succ_self _) ts rfl)

/-- A block at the head of some tokens is turned around. -/
theorem rewriteFrom_block {name : Token} {cs : List (Token × Token)} {ts : List Token}
    (h : BlockAt (name :: (written cs ++ ts)) 0 name cs) (last : Option TokenKind) :
    Layer.commands.rewriteFrom last (name :: (written cs ++ ts)) =
      (turned name cs ++ [name]) ++ Layer.commands.rewriteFrom (some .ident) ts := by
  obtain ⟨behind, hdrop, hbehind⟩ := h.found
  obtain rfl : ts = behind := List.append_cancel_left (List.cons.inj hdrop).2
  rw [rewriteFrom_clauses h.isName h.clauses hbehind, List.append_assoc, List.singleton_append]

theorem length_rewriteFrom (last : Option TokenKind) (ts : List Token) :
    (Layer.commands.rewriteFrom last ts).length = ts.length := by
  induction ts using block_induction generalizing last with
  | nil => rw [Layer.rewriteFrom_nil]
  | other t ts hname ih =>
    rw [rewriteFrom_of_not_named last hname, List.length_cons, List.length_cons, ih]
  | block name cs ts hblock ih =>
    rw [rewriteFrom_block hblock, List.length_append, ih, length_block, ← List.length_append,
      List.cons_append]

/-- The places behind a block, before it is turned around and afterwards. -/
theorem drop_behind_block (name : Token) (cs : List (Token × Token)) (ts : List Token) (k : Nat) :
    (name :: (written cs ++ ts)).drop (2 * cs.length + 1 + k) = ts.drop k ∧
      ((turned name cs ++ [name]) ++ ts).drop (2 * cs.length + 1 + k) = ts.drop k := by
  have hlength : (name :: written cs).length = 2 * cs.length + 1 := by
    rw [List.length_cons, length_written]
  constructor
  · rw [← List.cons_append, ← hlength, List.drop_length_add_append]
  · rw [← hlength, ← length_block, List.drop_length_add_append]

/-- Every block is turned around where it stands. -/
theorem BlockAt.turned_prefix {ts : List Token} {i : Nat} {name : Token}
    {cs : List (Token × Token)} (h : BlockAt ts i name cs) (last : Option TokenKind) :
    turned name cs ++ [name] <+: (Layer.commands.rewriteFrom last ts).drop i := by
  induction ts using block_induction generalizing i last with
  | nil =>
    obtain ⟨behind, hdrop, -⟩ := h.found
    rw [List.drop_nil] at hdrop
    cases hdrop
  | other t ts hname ih =>
    rcases i with _ | i
    · exact absurd h.namesCommand hname
    · rw [rewriteFrom_of_not_named last hname]
      exact ih (h.congr rfl) _
  | block name' cs' ts hblock ih =>
    rw [rewriteFrom_block hblock]
    rcases Nat.eq_zero_or_pos i with rfl | hi
    · obtain ⟨rfl, rfl⟩ := h.unique hblock
      exact List.prefix_append _ _
    · -- Any other block is behind this one.
      have hlt := hblock.apart h hi
      obtain ⟨k, rfl⟩ := Nat.exists_eq_add_of_le (show 2 * cs'.length + 1 ≤ i by omega)
      rw [(drop_behind_block name' cs' _ k).2]
      exact ih (h.congr (drop_behind_block name' cs' ts k).1) _

/-- What is in no block stays where it is. -/
theorem getElem?_rewriteFrom_of_apart {ts : List Token} {i : Nat}
    (h : ∀ j name cs, BlockAt ts j name cs → i < j ∨ j + 2 * cs.length < i)
    (last : Option TokenKind) : (Layer.commands.rewriteFrom last ts)[i]? = ts[i]? := by
  induction ts using block_induction generalizing i last with
  | nil => rw [Layer.rewriteFrom_nil]
  | other t ts hname ih =>
    rw [rewriteFrom_of_not_named last hname]
    rcases i with _ | i
    · rfl
    · refine ih (fun j name cs hblock => ?_) _
      have := h (j + 1) name cs (hblock.congr rfl)
      omega
  | block name cs ts hblock ih =>
    have hlt := h 0 name cs hblock
    obtain ⟨k, rfl⟩ := Nat.exists_eq_add_of_le (show 2 * cs.length + 1 ≤ i by omega)
    have hafter := ih (i := k) (fun j name' cs' hblock' => ?_) (some .ident)
    · rw [rewriteFrom_block hblock, ← List.head?_drop, ← List.head?_drop,
        (drop_behind_block name cs _ k).2, (drop_behind_block name cs ts k).1, List.head?_drop,
        List.head?_drop, hafter]
    · have := h _ name' cs' (hblock'.congr (drop_behind_block name cs ts j).1.symm)
      omega

/-! ## The layer -/

/-- Of tokens none of which is an end token, the layer of commands turns around the
    blocks, each where it stands, and leaves all other tokens as and where they are.
    Any two blocks are the same or apart. -/
theorem run_turns_blocks {ts : List Token} (hne : ∀ t ∈ ts, t.kind ≠ .eof) :
    ∃ out, Layer.commands.run ts = .ok out ∧ out.length = ts.length ∧
      (∀ i name cs, BlockAt ts i name cs → turned name cs ++ [name] <+: out.drop i) ∧
      (∀ i, (∀ j name cs, BlockAt ts j name cs → i < j ∨ j + 2 * cs.length < i) →
        out[i]? = ts[i]?) ∧
      ∀ i j name name' cs cs', BlockAt ts i name cs → BlockAt ts j name' cs' →
        (i = j ∧ name = name' ∧ cs = cs') ∨ i + 2 * cs.length < j ∨ j + 2 * cs'.length < i := by
  have hrun := Layer.commands.run_eq ts
  rw [TokenList.untilEnd_eq_self hne] at hrun
  refine ⟨_, hrun, length_rewriteFrom none ts, fun i name cs h => h.turned_prefix none,
    fun i h => getElem?_rewriteFrom_of_apart h none, fun i j name name' cs cs' h h' => ?_⟩
  rcases Nat.lt_trichotomy i j with hij | rfl | hji
  · exact .inr (.inl (h.apart h' hij))
  · exact .inl ⟨rfl, h.unique h'⟩
  · exact .inr (.inr (h'.apart h hji))

/-- The tokens of `b : a : run : check c : run d :`, with two blocks next to each
    other, a name that names no command, and a colon cut off by the end. -/
theorem run_turns_blocks_next_to_each_other :
    let t (kind : TokenKind) (column : Nat) : Token := ⟨kind, none, .point none ⟨1, column⟩⟩
    let name (label : String) (column : Nat) : Token :=
      (t .ident column).withPayload (some (.label label))
    let named (kind : TokenKind) (label : String) (column : Nat) : Token :=
      (t kind column).withPayload (some (.label label))
    let ts := [name "b" 1, t .colon 2, name "a" 3, t .colon 4, t (.keyword .run) 5, t .colon 6,
      t (.keyword .check) 7, name "c" 8, t .colon 9, t (.keyword .run) 10, name "d" 11, t .colon 12]
    let out := [name "b" 1, t .colon 2, named (.keyword .run) "a" 5, t .dot 4,
      named (.keyword .check) "a" 7, t .dot 6, name "a" 3, named (.keyword .run) "c" 10, t .dot 9,
      name "c" 8, name "d" 11, t .colon 12]
    let cs := [(t .colon 4, t (.keyword .run) 5), (t .colon 6, t (.keyword .check) 7)]
    let cs' := [(t .colon 9, t (.keyword .run) 10)]
    (∀ t ∈ ts, t.kind ≠ .eof) ∧ Layer.commands.run ts = .ok out ∧ BlockAt ts 2 (name "a" 3) cs ∧
      BlockAt ts 7 (name "c" 8) cs' ∧ turned (name "a" 3) cs ++ [name "a" 3] <+: out.drop 2 ∧
      turned (name "c" 8) cs' ++ [name "c" 8] <+: out.drop 7 := by
  intro t name named ts out cs cs'
  have hne : ∀ t ∈ ts, t.kind ≠ .eof := by decide +revert
  have hrun : Layer.commands.run ts = .ok out := by decide +kernel
  have hclauses : ∀ c ∈ cs, IsClause c :=
    List.forall_mem_cons.2 ⟨⟨rfl, rfl⟩, List.forall_mem_singleton.2 ⟨rfl, rfl⟩⟩
  have hclauses' : ∀ c ∈ cs', IsClause c := List.forall_mem_singleton.2 ⟨rfl, rfl⟩
  have hblock : BlockAt ts 2 (name "a" 3) cs := ⟨rfl, nofun, hclauses, _, rfl, nofun⟩
  have hblock' : BlockAt ts 7 (name "c" 8) cs' := ⟨rfl, nofun, hclauses', _, rfl, nofun⟩
  obtain ⟨out', hout', -, hturned, -⟩ := run_turns_blocks hne
  obtain rfl := Except.ok.inj (hrun.symm.trans hout')
  exact ⟨hne, hrun, hblock, hblock', hturned _ _ _ hblock, hturned _ _ _ hblock'⟩

end Commands

end AlloyLexical

import AlloyLexical.Proofs.Layer.Rewriting
import AlloyLexical.Source.Interrupted

/-!
# Stacks on failing sources

A source may fail in the middle of anything its layers are looking ahead at. What
a stack makes of that is said by `Stack.fails_once`:

* it hands out tokens, and then the failure instead of another token or an end;
* the failure is reported as it is, unless there is a layer of declarations to
  report it as a breakdown. Further layers of that sort leave the breakdown alone
  (`Stack.report_eq`);
* each token handed out by then is one that would have been handed out as well if
  the source had gone on, in whatever way: no token is made up of half of what
  belongs to it.
-/

namespace AlloyLexical

namespace Error

/-- Whether the error is a breakdown already. -/
def isFatal : Error → Bool
  | fatal _ => true
  | _ => false

theorem toFatal_eq (e : Error) : e.toFatal = if e.isFatal then e else fatal e.breakdown := by
  cases e <;> rfl

end Error

namespace Stack

/-- However many layers there are, an error is reported as a breakdown once, or as
    it is. -/
theorem report_eq (ls : List Layer) (e : Error) :
    report ls e = if e.isFatal ∨ .declarations ∉ ls then e else .fatal e.breakdown := by
  induction ls with
  | nil => rw [if_pos (.inr List.not_mem_nil)]; rfl
  | cons l ls ih =>
    rw [report, List.foldr_cons, ← report, ih]
    cases l with
    | declarations =>
      simp only [Layer.report, List.mem_cons, true_or, not_true_eq_false, or_false]
      rw [← Error.toFatal_eq]
      -- Below this layer the error may be a breakdown already.
      split
      · rfl
      · next h => rw [Error.toFatal_eq e, if_neg (fun he => h (.inl he))]; rfl
    | commands => simp [Layer.report]
    | operators => simp [Layer.report]
    | signs => simp [Layer.report]

variable {σ : Type} {S : Source Error σ} {s s' : σ}

/-- A stack on a source that hands out the tokens `p` and then fails hands out the
    beginning of what it makes of `p` and any tokens behind them, and then reports
    the failure. -/
theorem fails_once {p : List Token} {e : Error} (h : S.Yields s p (.error e) s')
    (ls : List Layer) :
    ∃ us st, (source S ls).Yields (fresh s ls) us
        (.error (if e.isFatal ∨ .declarations ∉ ls then e else .fatal e.breakdown)) st ∧
      ∀ q : List Token, (∀ t ∈ q, t.kind ≠ .eof) → ∃ vs,
        (source (TokenList.source Error) ls).collect (fresh (TokenList.ofList (p ++ q)) ls) =
          .ok vs ∧ us <+: vs := by
  obtain ⟨us, st, hst, -, hprefix⟩ := yields_error h ls
  rw [report_eq] at hst
  refine ⟨us, st, hst, fun q hq => ⟨_, collect_ofList ls (p ++ q), ?_⟩⟩
  rw [TokenList.untilEnd_eq_self (List.forall_mem_append.2 ⟨h.ne_eof, hq⟩)]
  exact hprefix q

/-- A literal that is left open behind the first name of a declaration, which two
    layers of declarations are waiting for. -/
theorem fails_once_in_declaration :
    let t (kind : TokenKind) (column : Nat) : Token := ⟨kind, none, .point none ⟨1, column⟩⟩
    let p := [t .minus 1, t (.quantifier .all) 2, t .ident 3]
    let e : ScanError := ⟨.unterminatedString, .point none ⟨1, 4⟩⟩
    let ls : List Layer := [.declarations, .commands, .declarations]
    (∃ s', (Interrupted.source Error).Yields ⟨p, .scan e⟩ p (.error (.scan e)) s') ∧
      ∃ us st, (source (Interrupted.source Error) ls).Yields
          (fresh (⟨p, .scan e⟩ : Interrupted Error) ls) us
          (.error (.fatal ⟨"IO error: unterminated string literal at line 1, column 4",
            some e.span⟩)) st ∧
        ∀ q : List Token, (∀ t ∈ q, t.kind ≠ .eof) → ∃ vs,
          (source (TokenList.source Error) ls).collect (fresh (TokenList.ofList (p ++ q)) ls) =
            .ok vs ∧ us <+: vs := by
  intro t p e ls
  have hs : (Interrupted.source Error).Yields ⟨p, .scan e⟩ p (.error (.scan e))
      ⟨[], .scan e⟩ :=
    .next rfl nofun (.next rfl nofun (.next rfl nofun (.done rfl trivial)))
  have herror : (if (Error.scan e).isFatal ∨ .declarations ∉ ls then .scan e
      else .fatal (Error.scan e).breakdown) =
      Error.fatal ⟨"IO error: unterminated string literal at line 1, column 4", some e.span⟩ := by
    decide +kernel
  have hfails := fails_once hs ls
  rw [herror] at hfails
  exact ⟨⟨_, hs⟩, hfails⟩

end Stack

end AlloyLexical

import AlloyLexical.Proofs.Filter.Staging

/-!
# Filtering a text

A filter on a text scans while it filters: its layers pull tokens from the
scanner as they need them. It comes to the same as scanning the whole text first
and filtering the tokens then (`filterText_eq`). Where the text has a fault, be
it behind everything the layers had to look at, filtering it fails as well, and
there is no other way to fail.
-/

namespace AlloyLexical

/-- The filter reports a fault of the text it scans as a breakdown. -/
theorem report_scan (e : ScanError) :
    Stack.report Filter.layers (.scan e) = .fatal ⟨"IO error: " ++ e.message, some e.span⟩ := rfl

namespace Filter

variable {s s' : Scanner} {ts : List Token}

/-- From a scanner that comes to the end of its text, the filter gives what its layers
    make of the tokens. -/
theorem collect_eq_rewrite {z : Token} (h : Scanner.source.Yields s ts (.ok z) s') :
    (source (Scanner.source.mapError Error.scan)).collect (Stack.fresh s layers) =
      .ok (Stack.rewrite layers ts) := by
  obtain ⟨st, hst, -⟩ := Stack.yields_rewrite (h.mapError Error.scan) layers
  exact hst.collect_eq

/-- From a scanner that comes to a fault, the filter gives the fault as a breakdown. -/
theorem collect_eq_fatal {e : ScanError} (h : Scanner.source.Yields s ts (.error e) s') :
    (source (Scanner.source.mapError Error.scan)).collect (Stack.fresh s layers) =
      .error (.fatal ⟨"IO error: " ++ e.message, some e.span⟩) := by
  obtain ⟨us, st, hst, -, -⟩ := Stack.yields_error (h.mapError Error.scan) layers
  rw [report_scan] at hst
  exact hst.collect_eq

end Filter

theorem filterText_of_tokenize {text : String} {ts : List Token} (h : tokenize text = .ok ts) :
    filterText text = .ok (Stack.rewrite Filter.layers ts) := by
  obtain ⟨z, s, hyields⟩ := tokenize_eq_ok_iff_yields.1 h
  exact Filter.collect_eq_rewrite hyields

theorem filterText_of_fault {text : String} {e : ScanError} (h : tokenize text = .error e) :
    filterText text = .error (.fatal ⟨"IO error: " ++ e.message, some e.span⟩) := by
  obtain ⟨ts, s, hyields⟩ := tokenize_eq_error_iff_yields.1 h
  exact Filter.collect_eq_fatal hyields

/-- What the filter gives of a text, its layers have made of the tokens of the text. -/
theorem exists_tokenize_of_filterText {text : String} {out : List Token}
    (h : filterText text = .ok out) :
    ∃ ts, tokenize text = .ok ts ∧ out = Stack.rewrite Filter.layers ts := by
  rcases htokens : tokenize text with e | ts
  · rw [filterText_of_fault htokens] at h
    cases h
  · rw [filterText_of_tokenize htokens] at h
    exact ⟨ts, rfl, (Except.ok.inj h).symm⟩

/-- The tokens of a text have no end token among them. -/
theorem ne_eof_of_tokenize {text : String} {ts : List Token} (h : tokenize text = .ok ts) :
    ∀ t ∈ ts, t.kind ≠ .eof := by
  obtain ⟨z, s, hyields⟩ := tokenize_eq_ok_iff_yields.1 h
  exact hyields.ne_eof

/-- Filtering a text is filtering its tokens, or failing where it has none. -/
theorem filterText_eq (text : String) :
    match tokenize text with
    | .ok ts => filterText text = filterTokens ts ∧ ∃ out, filterText text = .ok out
    | .error e => filterText text = .error (.fatal ⟨"IO error: " ++ e.message, some e.span⟩) := by
  rcases htokens : tokenize text with e | ts
  · exact filterText_of_fault htokens
  · have hfilter := filterText_of_tokenize htokens
    refine ⟨?_, _, hfilter⟩
    rw [hfilter, filterTokens_eq (ne_eof_of_tokenize htokens)]

end AlloyLexical

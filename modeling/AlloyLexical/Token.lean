import AlloyLexical.Span
import AlloyLexical.Token.Kind

/-!
# Tokens

A *token* is a kind, the span it was written in and possibly a *payload*: the
label of a name, the value of a number or the text of a string. A payload is
tied to no kind: a command keeps the keyword's kind while carrying the label of
its name, and no layer of the filter reads a payload whose kind it has not
checked.
-/

namespace AlloyLexical

/-- What a token carries besides its kind. -/
inductive Payload where
  | label (name : String)
  | number (value : Int64)
  | text (content : String)
deriving DecidableEq

/-- A piece of a text that means something to a grammar. -/
structure Token where
  kind : TokenKind
  payload : Option Payload
  span : Span
deriving DecidableEq

namespace Token

/-- The token that ends a stream. -/
def eof (span : Span) : Token := ⟨.eof, none, span⟩

/-- Whether the token ends a stream. -/
def isEof (t : Token) : Bool := t.kind = .eof

@[simp] theorem isEof_iff {t : Token} : t.isEof = true ↔ t.kind = .eof := by simp [isEof]

/-- What a token means, wherever it stands. -/
def meaning (t : Token) : TokenKind × Option Payload := (t.kind, t.payload)

/-- The label the token carries, whatever its kind. -/
def label? (t : Token) : Option String :=
  match t.payload with
  | some (.label name) => some name
  | _ => none

/-- The number the token carries, whatever its kind. -/
def number? (t : Token) : Option Int64 :=
  match t.payload with
  | some (.number value) => some value
  | _ => none

/-- The label of an identifier: both the kind and the payload have to fit. -/
def name? (t : Token) : Option String := if t.kind = .ident then t.label? else none

/-- Whether the token is the identifier `name`. -/
def isIdent (t : Token) (name : String) : Bool := t.name? = some name

/-- The token with another kind. -/
def withKind (t : Token) (kind : TokenKind) : Token := { t with kind := kind }

/-- The token with another payload. -/
def withPayload (t : Token) (payload : Option Payload) : Token := { t with payload := payload }

/-- The token with its span widened to cover another token. -/
def covering (t other : Token) : Token := { t with span := t.span.merge other.span }

/-! ## Counting tokens -/

/-- The number of tokens in a list before the first end token. If there is none
    in the list, the `n` tokens after it count as well. -/
def countToEnd : List Token → Nat → Nat
  | [], n => n
  | t :: ts, n => if t.kind = .eof then 0 else countToEnd ts n + 1

@[simp] theorem countToEnd_nil (n : Nat) : countToEnd [] n = n := rfl

theorem countToEnd_cons_of_ne {t : Token} (ts : List Token) (n : Nat) (h : t.kind ≠ .eof) :
    countToEnd (t :: ts) n = countToEnd ts n + 1 := if_neg h

@[simp] theorem countToEnd_append (ts us : List Token) (n : Nat) :
    countToEnd (ts ++ us) n = countToEnd ts (countToEnd us n) := by
  induction ts with
  | nil => rfl
  | cons t ts ih => simp only [List.cons_append, countToEnd, ih]

theorem countToEnd_of_ne_eof {ts : List Token} (h : ∀ t ∈ ts, t.kind ≠ .eof) (n : Nat) :
    countToEnd ts n = ts.length + n := by
  induction ts with
  | nil => exact (Nat.zero_add n).symm
  | cons t ts ih =>
    obtain ⟨ht, hts⟩ := List.forall_mem_cons.1 h
    rw [countToEnd_cons_of_ne ts n ht, ih hts, List.length_cons, Nat.add_right_comm]

theorem countToEnd_le_of_le (ts : List Token) {m n : Nat} (h : m ≤ n) :
    countToEnd ts m ≤ countToEnd ts n := by
  induction ts with
  | nil => exact h
  | cons t ts ih =>
    simp only [countToEnd]
    split <;> omega

end Token

end AlloyLexical

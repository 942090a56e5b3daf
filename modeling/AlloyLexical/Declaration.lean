import AlloyLexical.Declaration.Name

/-!
# Declarations

A declaration binds names to an expression, as `disj a, b: X` does. It has at
least one name and no faulty one, and it says of its names that they are
disjoint only if there are several.

`Declaration.of` makes a declaration or tells why there is none: because there
is no name, or because of the first name that is at fault.

Declarations know where they stand. The position of a declaration covers its
names and the word `disj`, also where that word is dropped because there is
nothing to be disjoint; its span covers the expression as well. The span is not
put together before somebody asks for it, and then the declaration keeps it
(`Declaration.asked`).
-/

namespace AlloyLexical

/-- Things that may have a span. -/
class HasSpan (α : Type) where
  span? : α → Option Span

instance : HasSpan Span := ⟨some⟩

instance : HasSpan (Option Span) := ⟨id⟩

instance : HasSpan Token := ⟨fun t => some t.span⟩

/-- Names bound to an expression. -/
structure Declaration (α : Type) where
  position : Option Span
  /-- Where the names are said to be disjoint, if they are. -/
  disjoint : Option Span
  names : List Name
  value : α
  /-- The span, once somebody has asked for it. -/
  known : Option (Option Span)
  names_ne_nil : names ≠ []
  error?_eq_none : ∀ n ∈ names, n.error? = none
  one_lt_length : disjoint.isSome → 1 < names.length

namespace Declaration

variable {α : Type}

/-- The least span that covers the given one and the names. -/
def coverNames (position : Option Span) (names : List Name) : Option Span :=
  names.foldl (fun p n => Span.cover p (some n.span)) position

/-- The declaration of the names, or the first error there is. -/
def of (position : Option Span) (names : List Name) (disjoint : Option Span) (value : α) :
    Except DeclarationError (Declaration α) :=
  let position := coverNames (Span.cover position disjoint) names
  if hnames : names = [] then .error ⟨.noNames, position⟩
  else
    match herror : names.findSome? Name.error? with
    | some e => .error e
    | none => .ok {
        position := position
        disjoint := if 1 < names.length then disjoint else none
        names := names
        value := value
        known := none
        names_ne_nil := hnames
        error?_eq_none := List.findSome?_eq_none_iff.1 herror
        one_lt_length := by split <;> simp_all }

/-- The declaration of a single name. -/
def single (position : Option Span) (name : Name) (value : α) :
    Except DeclarationError (Declaration α) :=
  of position [name] none value

/-- Whether the names are said to be disjoint. -/
def isDisjoint (d : Declaration α) : Bool := d.disjoint.isSome

/-- The labels of the names. -/
def labels (d : Declaration α) : List String := d.names.map Name.label

/-- The least span that covers the declaration and its expression, as the declaration
    knows it, or put together if it does not. -/
def span? [HasSpan α] (d : Declaration α) : Option Span :=
  d.known.getD (Span.cover (Span.cover d.position d.disjoint) (HasSpan.span? d.value))

/-- The declaration after somebody has asked for its span. -/
def asked [HasSpan α] (d : Declaration α) : Declaration α := { d with known := some d.span? }

/-- The declaration in words: its labels. -/
def text (d : Declaration α) : String :=
  "Declaration\x7b" ++ String.intercalate "," d.labels ++ "\x7d"

/-! ## Names declared twice -/

/-- The first label of the names that is declared again, by a name behind it or by one
    of the later declarations. -/
def findAgain (later : List (Declaration α)) : List Name → Option String
  | [] => none
  | n :: names =>
    if names.any (·.label = n.label) || later.any (·.labels.any (· = n.label)) then some n.label
    else findAgain later names

/-- The first label that is declared twice, by one of the declarations or by two. -/
def findDuplicate : List (Declaration α) → Option String
  | [] => none
  | d :: later => (findAgain later d.names).or (findDuplicate later)

end Declaration

end AlloyLexical

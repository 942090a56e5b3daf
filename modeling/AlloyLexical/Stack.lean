import AlloyLexical.Layer

/-!
# Stacks of layers

Layers are stacked on a source, each reading the one below it. A stack is given
by the list of its layers from the top down; its state is the state of the
source at the bottom, with a memory for every layer. As every layer on a source
is a source, so is every stack.
-/

namespace AlloyLexical

/-- The states of a stack: the memories of its layers over a state of the source
    at the bottom. -/
def Stack (σ : Type) : List Layer → Type
  | [] => σ
  | _ :: ls => Memory × Stack σ ls

namespace Stack

variable {σ : Type}

/-- Fresh layers over a state of the source. -/
def fresh (s : σ) : (ls : List Layer) → Stack σ ls
  | [] => s
  | _ :: ls => (Memory.empty, fresh s ls)

/-- The state of the source at the bottom. -/
def base : {ls : List Layer} → Stack σ ls → σ
  | [], s => s
  | _ :: _, s => base s.2

/-- The stack as a source. -/
def source (S : Source Error σ) : (ls : List Layer) → Source Error (Stack σ ls)
  | [] => S
  | l :: ls => l.atop (source S ls)

@[simp] theorem base_fresh (s : σ) (ls : List Layer) : (fresh s ls).base = s := by
  induction ls with
  | nil => rfl
  | cons l ls ih => exact ih

end Stack

end AlloyLexical

import FlatSchema.Schema.Namespace

/-!
# Moving between namespaces

Going from one namespace to another closes the components that the two do not share, innermost first, and opens those of the
target, outermost first.
-/

namespace FlatSchema

/-- A move from one namespace to another. -/
structure Transition where
  source : Namespace
  target : Namespace
deriving DecidableEq, Repr

namespace Transition

/-- The number of components that stay open. -/
def common (t : Transition) : Nat := t.source.common t.target

/-- The components to close, innermost first. -/
def closing (t : Transition) : List String := (t.source.components.drop t.common).reverse

/-- The components to open, outermost first. -/
def opening (t : Transition) : List String := t.target.components.drop t.common

/-- Whether there is nothing to close or open. -/
def isNoop (t : Transition) : Bool :=
  t.common == t.source.components.length && t.common == t.target.components.length

end Transition

/-- The moves that visit namespaces one after the other, from the root. -/
def Transition.visit (source : Namespace) : List Namespace → List Transition
  | [] => []
  | n :: rest => { source, target := n } :: visit n rest

end FlatSchema

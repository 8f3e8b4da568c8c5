import FlatSchema.Text.Blank

/-!
# Namespaces

A namespace is a sequence of components, outermost first; the empty one is the root. In a document it is written with dots.
-/

namespace FlatSchema

/-- A namespace. -/
structure Namespace where
  components : List String := []
deriving DecidableEq, Repr, Inhabited

namespace Namespace

/-- The namespace of definitions that are declared in none. -/
def root : Namespace := {}

/-- Whether a namespace is the outermost one. -/
def isRoot (n : Namespace) : Bool := n.components.isEmpty

/-- Reads a dotted namespace. Blanks around a component do not count, and neither do empty components. -/
def ofDotted (s : String) : Namespace where
  components := ((s.toList.splitOn '.').map Text.trim |>.filter (fun c => !c.isEmpty)).map String.ofList

/-- The innermost component. -/
def last? (n : Namespace) : Option String := n.components.getLast?

/-- The components with a separator between them. -/
def join (n : Namespace) (separator : String) : String :=
  separator.intercalate n.components

/-- A name in the namespace, after the components and separators. -/
def qualify (n : Namespace) (name separator : String) : String :=
  if n.isRoot then name else n.join separator ++ separator ++ name

/-- The namespace as it is written. -/
def dotted (n : Namespace) : String := n.join "."

/-- The length of the longest common beginning of two lists. -/
def commonLength : List String → List String → Nat
  | a :: as, b :: bs => if a = b then commonLength as bs + 1 else 0
  | _, _ => 0

/-- The number of outer components that two namespaces share. -/
def common (a b : Namespace) : Nat := commonLength a.components b.components

/-- The order of namespaces: component by component, and a namespace before those inside it. -/
def before (a b : Namespace) : Bool := decide (a.components < b.components)

end Namespace

end FlatSchema

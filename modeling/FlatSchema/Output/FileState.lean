import FlatSchema.Schema.Namespace

/-!
# What is known about a file while it is written
-/

namespace FlatSchema

/-- Puts a text into a list that ascends and holds no text twice. -/
def insertSorted (s : String) : List String → List String
  | [] => [s]
  | t :: rest => if s < t then s :: t :: rest else if s = t then t :: rest else t :: insertSorted s rest

/-- The state of a file: what it has declared and imports so far. -/
structure FileState where
  /-- The namespace that the file belongs to, the root for a single file. -/
  scope : Namespace := {}
  /-- The namespace of the definition that is being written. -/
  current : Namespace := {}
  /-- Import lines in ascending order. -/
  imports : List String := []
  /-- The number of definitions written. -/
  emitted : Nat := 0
  /-- The qualified names of the definitions written. -/
  declared : List String := []
deriving Repr, Inhabited

namespace FileState

/-- The state at the start of a file. -/
def start (scope : Namespace) : FileState := { scope, current := scope }

/-- Records an import line. -/
def addImport (s : FileState) (item : String) : FileState :=
  { s with imports := insertSorted item s.imports }

/-- Records several import lines. -/
def addImports (s : FileState) (items : List String) : FileState :=
  items.foldl addImport s

/-- Records a definition as written. -/
def declare (s : FileState) (qualified : String) : FileState :=
  { s with emitted := s.emitted + 1, declared := s.declared ++ [qualified] }

end FileState

end FlatSchema

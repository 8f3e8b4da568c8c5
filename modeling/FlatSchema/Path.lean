/-!
# Paths

Paths are texts with `/` between their parts. Two paths lead to the same place if their parts agree: repeated separators, a dot
after the start and a separator at the end do not count.
-/

namespace FlatSchema.Path

/-- A part of a path. -/
inductive Part
  | root
  | current
  | parent
  | normal (name : String)
deriving DecidableEq, Repr

/-- The kinds of part in ascending order. -/
def Part.rank : Part → Nat
  | .root => 0
  | .current => 1
  | .parent => 2
  | .normal _ => 3

/-- The order of parts: by kind, and names as texts. -/
def Part.before : Part → Part → Bool
  | .normal a, .normal b => decide (a < b)
  | a, b => a.rank < b.rank

/-- The order of lists of parts: a beginning of a list comes before the list. -/
def comparePartLists : List Part → List Part → Ordering
  | [], [] => .eq
  | [], _ :: _ => .lt
  | _ :: _, [] => .gt
  | a :: as, b :: bs => if a = b then comparePartLists as bs else if a.before b then .lt else .gt

/-- Whether a path starts at the root. -/
def isAbsolute (path : String) : Bool :=
  path.toList.head? == some '/'

/-- The start of a path (the root, or a dot that stands for the current directory) and the pieces between the separators of
the rest. -/
def headAndPieces (path : String) : List Part × List (List Char) :=
  match path.toList with
  | '/' :: rest => ([.root], rest.splitOn '/')
  | ['.'] => ([.current], [[]])
  | '.' :: '/' :: rest => ([.current], [] :: rest.splitOn '/')
  | s => ([], s.splitOn '/')

/-- A piece that is no part. -/
def ignorable (piece : List Char) : Bool :=
  piece.isEmpty || piece == ['.']

/-- The parts of a path. -/
def parts (path : String) : List Part :=
  let (head, pieces) := headAndPieces path
  head ++ (pieces.filter (fun p => !ignorable p)).map fun p =>
    if p = ['.', '.'] then .parent else .normal (String.ofList p)

/-- The order of paths. -/
def compare (a b : String) : Ordering :=
  comparePartLists (parts a) (parts b)

/-- A path below another. An absolute path stands alone. -/
def join (a b : String) : String :=
  if isAbsolute b then b
  else if a.isEmpty || a.toList.getLast? == some '/' then a ++ b
  else a ++ "/" ++ b

/-- A path made of components, each below the one before. -/
def ofComponents (components : List String) : String :=
  components.foldl join ""

/-- The text of the start of a path. -/
def headText : List Part → String
  | [.root] => "/"
  | [.current] => "."
  | _ => ""

/-- The text of a start and pieces. Pieces at the end that are no parts are left out. -/
def textOf (head : List Part) (pieces : List (List Char)) : String :=
  let kept := (pieces.reverse.dropWhile ignorable).reverse
  headText head ++ "/".intercalate (kept.map String.ofList)

/-- A path without the separators and dots at its end. -/
def trimmed (path : String) : String :=
  let (head, pieces) := headAndPieces path
  textOf head pieces

/-- The path without its last part. The root and the empty path have no such path. -/
def parent? (path : String) : Option String :=
  let (head, pieces) := headAndPieces path
  match pieces.reverse.dropWhile ignorable with
  | _ :: before => some (textOf head before.reverse)
  | [] => if head = [.current] then some "" else none

/-- The name that the text of a path ends in. With a separator or a dot behind its last name a path asks for a directory, and
has no such name. -/
def finalName? (path : String) : Option String :=
  match (headAndPieces path).2.getLast? with
  | some piece => if ignorable piece || piece == ['.', '.'] then none else some (String.ofList piece)
  | none => none

/-- All paths that lead to a path, from the innermost outward, without the empty one. -/
def ancestors : Nat → String → List String
  | 0, _ => []
  | n + 1, path =>
    match parent? path with
    | some p => if p.isEmpty then [] else p :: ancestors n p
    | none => []

/-- Puts a path into a list in the order of paths, unless a path to the same place is there. -/
def insertSorted (path : String) : List String → List String
  | [] => [path]
  | p :: rest =>
    match compare path p with
    | .lt => path :: p :: rest
    | .eq => p :: rest
    | .gt => p :: insertSorted path rest

/-- The name of the last part, if that is a name. -/
def fileName? (path : String) : Option String :=
  match (parts path).getLast? with
  | some (.normal n) => some n
  | _ => none

/-- The name of the last part up to its last dot; a dot in front does not count. -/
def fileStem (path : String) : String :=
  match fileName? path with
  | none => ""
  | some n =>
    match n.toList.reverse.dropWhile (· != '.') with
    | _ :: c :: rest => String.ofList (c :: rest).reverse
    | _ => n

end FlatSchema.Path

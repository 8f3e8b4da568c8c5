import FlatSchema.Output.Sink

/-!
# A tree of directories and files

A path is followed part by part through the tree: a name leads into a directory that is there, two dots lead to the directory
around. So two paths with different parts may lead to one file. A file is saved after the directories on its way were made; the
tree refuses it if a file stands on the way, if a directory stands at its place, or if a name on the path cannot be given.
-/

namespace FlatSchema

/-- Where the names of a place begin: at the root, or a number of levels above the working directory. -/
inductive Origin
  | root
  | above (levels : Nat)
deriving DecidableEq, Repr

/-- A place in the tree: the names that lead to it from where they begin, the last one first. -/
structure Place where
  origin : Origin := .above 0
  names : List String := []
deriving DecidableEq, Repr

namespace Place

/-- The place of a name in a directory. -/
def child (p : Place) (name : String) : Place := { p with names := name :: p.names }

/-- The directory around a place. The root is its own. -/
def parent : Place → Place
  | ⟨origin, _ :: names⟩ => ⟨origin, names⟩
  | ⟨.above n, []⟩ => ⟨.above (n + 1), []⟩
  | ⟨.root, []⟩ => ⟨.root, []⟩

end Place

/-- What stands at a place. -/
inductive Node
  | directory
  | file (contents : String)
deriving DecidableEq, Repr

/-- The directories and files that were made, the latest first. -/
structure FileTree where
  nodes : List (Place × Node) := []
deriving Repr

namespace FileTree

/-- A name has at most 255 bytes. -/
def nameFits (name : String) : Bool := name.utf8ByteSize ≤ 255

/-- A path has at most 4095 bytes, and none of them is zero. -/
def pathFits (path : String) : Bool := path.utf8ByteSize ≤ 4095 && !path.toList.contains '\x00'

/-- What stands at a place. The places without names are directories from the start. -/
def node? (t : FileTree) (p : Place) : Option Node :=
  if p.names.isEmpty then some .directory else t.nodes.lookup p

/-- The tree with a node at a place. -/
def insert (t : FileTree) (p : Place) (n : Node) : FileTree := { t with nodes := (p, n) :: t.nodes }

/-- The place that a part leads to. A name has to be that of a directory. -/
def enter? (t : FileTree) (p : Place) : Path.Part → Option Place
  | .root => some { origin := .root }
  | .current => some p
  | .parent => some p.parent
  | .normal name => if t.node? (p.child name) = some .directory then some (p.child name) else none

/-- The directory that parts lead to, one after the other. -/
def walk? (t : FileTree) : Place → List Path.Part → Option Place
  | p, [] => some p
  | p, part :: rest => do t.walk? (← t.enter? p part) rest

/-- The tree with a directory at a place, unless a file stands there or its name does not fit. -/
def makeDirectory? (t : FileTree) (p : Place) (name : String) : Option FileTree :=
  match t.node? (p.child name) with
  | some .directory => some t
  | some (.file _) => none
  | none => if nameFits name then some (t.insert (p.child name) .directory) else none

/-- Makes the directories on the way that parts lead, as far as they are missing. -/
def makeWay? (t : FileTree) : Place → List Path.Part → Option FileTree
  | _, [] => some t
  | p, part :: rest => do
    let t ← match part with
      | .normal name => t.makeDirectory? p name
      | _ => some t
    t.makeWay? (← t.enter? p part) rest

/-- Makes a directory and those on the way to it. -/
def makeDirectories? (t : FileTree) (path : String) : Option FileTree :=
  if pathFits path then t.makeWay? {} (Path.parts path) else none

/-- The place of a file: its name in the directory that the parts before it lead to. -/
def place? (t : FileTree) (path : String) : Option Place := do
  let name ← Path.finalName? path
  let directory ← t.walk? {} (Path.parts path).dropLast
  if pathFits path && nameFits name then some (directory.child name) else none

/-- Writes a file over what stood there, unless that is a directory. -/
def writeFile? (t : FileTree) (path contents : String) : Option FileTree := do
  let p ← t.place? path
  if t.node? p = some .directory then none else some (t.insert p (.file contents))

/-- The contents of a file. -/
def read? (t : FileTree) (path : String) : Option String := do
  match t.node? (← t.place? path) with
  | some (.file contents) => some contents
  | _ => none

/-- Makes the directory that holds a file. -/
def makeParent (t : FileTree) (path : String) : Except GenError FileTree :=
  match Path.parent? path with
  | none => .ok t
  | some dir =>
    if dir.isEmpty then .ok t
    else
      match t.makeDirectories? dir with
      | some t => .ok t
      | none => .error (.io dir "cannot make the directory")

/-- Saves a file after making the directory that holds it. The error names the path that failed. -/
def save (t : FileTree) (path contents : String) : Except GenError FileTree := do
  let t ← t.makeParent path
  match t.writeFile? path contents with
  | some t => return t
  | none => .error (.io path "cannot write the file")

/-- A tree as a sink. -/
def sink : Sink FileTree where
  save := save

end FileTree

end FlatSchema

import FlatSchema.Code.Writer

/-!
# Code as a list of steps

Generators describe code as a list of steps and leave the writing to a `Writer`. A line is a phrase, which carries the imports
that its text relies on, so that a file can import exactly what its code mentions.
-/

namespace FlatSchema

/-- A piece of a line and the imports that it relies on. -/
structure Phrase where
  text : String
  imports : List String := []
deriving DecidableEq, Repr, Inhabited

namespace Phrase

instance : Coe String Phrase := ⟨fun s => { text := s }⟩

/-- One phrase after another. -/
def append (a b : Phrase) : Phrase :=
  { text := a.text ++ b.text, imports := a.imports ++ b.imports }

instance : Append Phrase := ⟨append⟩

/-- Phrases with a separator between them. -/
def intercalate (separator : String) (ps : List Phrase) : Phrase :=
  { text := separator.intercalate (ps.map (·.text)), imports := ps.flatMap (·.imports) }

/-- A phrase with blanks after it up to a number of characters. `Target.print` refuses a column that is too wide to be aligned. -/
def padded (p : Phrase) (width : Nat) : Phrase :=
  { p with text := p.text ++ String.ofList (List.replicate (width - p.text.length) ' ') }

end Phrase

/-- One step of writing code. -/
inductive Step
  | set (key value : String)
  | line (phrase : Phrase)
  | comment (mark : String) (docs : List String)
  | raw (text : String)
  | require (item : String)
  | indent
  | dedent
deriving Repr

/-- Code as the steps that write it. -/
abbrev Code := List Step

namespace Code

/-- One line. -/
def line (p : Phrase) : Code := [.line p]

/-- Several lines. -/
def lines (ps : List Phrase) : Code := ps.map .line

/-- Several lines that need no import. -/
def texts (ss : List String) : Code := ss.map fun (s : String) => .line s

/-- An empty line. -/
def blank : Code := [.line ""]

/-- Documentation behind the mark of a comment. -/
def comment (mark : String) (docs : List String) : Code := [.comment mark docs]

/-- An import that no phrase mentions. -/
def require (item : String) : Code := [.require item]

/-- Code one step deeper. -/
def indented (c : Code) : Code := .indent :: c ++ [.dedent]

/-- Code with blanks in front of every line. Where a text has line breaks, only its first line is moved; `indented` moves all of
them. -/
def inset (blanks : String) (c : Code) : Code :=
  c.map fun
    | .line p => .line (blanks ++ p)
    | step => step

/-- A head and a body one step deeper. -/
def nested (head : Phrase) (body : Code) : Code :=
  line head ++ indented body

/-- A head, a body one step deeper and an end. -/
def block (head : Phrase) (body : Code) (stop : String) : Code :=
  nested head body ++ line stop

/-- A block between braces. The head goes without its brace. -/
def braced (head : Phrase) (body : Code) : Code :=
  block (head ++ " \x7b") body "\x7d"

/-- Code only under a condition. -/
def when (condition : Bool) (c : Code) : Code := if condition then c else []

end Code

/-- The imports that a step asks for. -/
def Step.imports : Step → List String
  | .line p => p.imports
  | .require item => [item]
  | _ => []

/-- The imports that code asks for. -/
def Code.imports (c : Code) : List String := c.flatMap Step.imports

namespace Writer

/-- Takes one step. -/
def step (w : Writer) : Step → Writer
  | .set key value => w.set key value
  | .line p => w.line p.text
  | .comment mark docs => w.comment mark docs
  | .raw text => w.raw text
  | .require _ => w
  | .indent => w.indent
  | .dedent => w.dedent

/-- Takes all steps of some code. -/
def run (w : Writer) (c : Code) : Writer := c.foldl step w

/-- The text of some code. -/
def render (unit : String) (c : Code) : String := (run { unit } c).text

end Writer

end FlatSchema

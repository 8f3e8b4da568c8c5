import FlatSchema.Code.Step
import FlatSchema.Plan.Struct

/-!
# Spelling the builder of a struct

The steps of a struct's plan as code. A language says how each step is written; the loops over arrays and the indices of the
parameters inside them are the same for all.
-/

namespace FlatSchema

/-- How a language writes the steps of a struct's builder. -/
structure BuilderSpelling where
  prep : Nat → Nat → String
  pad : Nat → String
  /-- Writes a value of a type. -/
  put : TypeDesc → String → String
  /-- The head of a loop over an array of some length, with the name of its index. -/
  loop : String → Nat → String
  /-- The lines after a loop. -/
  loopEnd : Code
  /-- The name of a parameter. -/
  param : String → String

namespace BuilderSpelling

/-- The name of the index of a loop inside some number of others. -/
def indexName (depth : Nat) : String := s!"_idx{depth}"

/-- The indices of all loops around a value. -/
def indices (depth : Nat) : String :=
  String.join ((List.range depth).map fun i => s!"[{indexName i}]")

/-- The code of steps inside some number of loops. -/
def code (b : BuilderSpelling) : Nat → List BuildOp → Code
  | _, [] => []
  | depth, op :: rest =>
    match op with
    | .prep align size => .line (b.prep align size) :: code b depth rest
    | .pad n => .line (b.pad n) :: code b depth rest
    | .put p t inArray =>
      let value := b.param p ++ (if inArray then indices depth else "")
      .line (b.put t value) :: code b depth rest
    | .beginArray n => .line (b.loop (indexName depth) n) :: .indent :: code b (depth + 1) rest
    | .endArray => .dedent :: b.loopEnd ++ code b (depth - 1) rest

end BuilderSpelling

end FlatSchema

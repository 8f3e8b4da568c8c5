import FlatSchema.Output.Render

/-!
# Where files go

A sink takes files one after the other and may refuse one. `Target.generate` hands it the files of a schema and stops at the first
that is refused; `Target.publish` does so for a schema whose columns can be aligned. Files in memory are kept by their paths, and
every file is taken.
-/

namespace FlatSchema

/-- A place that takes files. -/
structure Sink (σ : Type) where
  save : σ → String → String → Except GenError σ

/-- What was written: the paths in order, and the number of lines. -/
structure Summary where
  paths : List String := []
  lines : Nat := 0
deriving DecidableEq, Repr

namespace Sink

/-- Writes files below a directory, up to the first that is refused. The state of the sink is that after the last file that it
took. -/
def writeAll (sink : Sink σ) (output : String) : σ → List OutputFile → σ × Except GenError Summary
  | state, [] => (state, .ok {})
  | state, f :: rest =>
    let path := Path.join output f.path
    match sink.save state path f.contents with
    | .error e => (state, .error e)
    | .ok state =>
      match writeAll sink output state rest with
      | (state, .error e) => (state, .error e)
      | (state, .ok s) => (state, .ok { paths := path :: s.paths, lines := lineCount f.contents + s.lines })

/-- A sink that takes a limited number of files. -/
def limited (sink : Sink σ) (refusal : String) : Sink (Nat × σ) where
  save
    | (0, _), path, _ => .error (.io path refusal)
    | (n + 1, state), path, contents => do return (n, ← sink.save state path contents)

/-- Writes files below a directory, if there are any to write. -/
def deliver (sink : Sink σ) (output : String) (state : σ) : Except GenError (List OutputFile) → σ × Except GenError Summary
  | .error e => (state, .error e)
  | .ok files => sink.writeAll output state files

end Sink

namespace Target

/-- Generates the files of a schema into a sink. -/
def generate (t : Target) (schema : Schema) (options : Options) (sink : Sink σ) (state : σ) (output : String) :
    σ × Except GenError Summary :=
  sink.deliver output state (t.render schema options)

/-- Generates the files of a schema into a sink, if none of their columns is too wide. -/
def publish (t : Target) (schema : Schema) (options : Options) (sink : Sink σ) (state : σ) (output : String) :
    σ × Except GenError Summary :=
  sink.deliver output state (t.print schema options)

end Target

/-- Files in memory: paths with their contents, in the order of paths. No two paths lead to the same place. -/
abbrev MemoryFiles := List (String × String)

namespace MemoryFiles

/-- Saves a file. A path that leads to a file that is there keeps the spelling of that file. -/
def save (path contents : String) : MemoryFiles → MemoryFiles
  | [] => [(path, contents)]
  | (p, c) :: rest =>
    match Path.compare path p with
    | .lt => (path, contents) :: (p, c) :: rest
    | .eq => (p, contents) :: rest
    | .gt => (p, c) :: save path contents rest

/-- The contents of a file. -/
def get? (files : MemoryFiles) (path : String) : Option String :=
  (files.find? fun f => Path.compare path f.1 == .eq).map (·.2)

/-- Memory as a sink that takes every file. -/
def sink : Sink MemoryFiles where
  save files path contents := .ok (save path contents files)

end MemoryFiles

end FlatSchema

import FlatSchema.Schema.Error
import FlatSchema.Text.Blank

/-!
# Target languages

The languages for which code is generated, and the names by which they can be asked for.
-/

namespace FlatSchema

/-- A target language. -/
inductive Language
  | python
  | go
  | csharp
  | lua
  | jsonSchema
  | fbs
deriving DecidableEq, Repr

namespace Language

/-- The name of a language. -/
def name : Language → String
  | python => "python"
  | go => "go"
  | csharp => "csharp"
  | lua => "lua"
  | jsonSchema => "jsonschema"
  | fbs => "fbs"

/-- All names of languages, in lower case. -/
def names : List (String × Language) :=
  [("python", python), ("py", python), ("go", go), ("golang", go), ("csharp", csharp), ("cs", csharp), ("c#", csharp),
    ("lua", lua), ("jsonschema", jsonSchema), ("json-schema", jsonSchema), ("json_schema", jsonSchema), ("fbs", fbs),
    ("idl", fbs)]

/-- The language with a name. Blanks around the name and the case of ASCII letters do not count. -/
def named? (s : String) : Option Language :=
  names.lookup (String.ofList ((Text.trim s.toList).map Char.toLower))

end Language

/-- Why generation fails. -/
inductive GenError
  /-- The schema cannot be loaded or breaks a rule. -/
  | schema (cause : LoadError)
  /-- A file cannot be written. -/
  | io (path cause : String)
  | unknownLanguage (name : String)
  /-- A type refers to a definition that the schema does not have. -/
  | danglingType
  /-- A column of a file is too wide to be aligned. -/
  | wideColumn
deriving DecidableEq, Repr

/-- The wording of an error. -/
def GenError.message : GenError → String
  | schema cause => s!"schema error: {cause.message}"
  | io path cause => s!"failed to write '{path}': {cause}"
  | unknownLanguage name => s!"unknown target language '{name}'"
  | danglingType => "generation error: type without definition"
  | wideColumn => "generation error: column too wide"

/-- The language with a name, or the error for a name that no language has. -/
def Language.ofName (s : String) : Except GenError Language :=
  match named? s with
  | some l => .ok l
  | none => .error (.unknownLanguage s)

end FlatSchema

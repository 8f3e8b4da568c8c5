import FlatSchema.Output.Sink
import FlatSchema.Target.CSharpNamespace
import FlatSchema.Target.FbsText
import FlatSchema.Target.GoPackage
import FlatSchema.Target.JsonSchemaDoc
import FlatSchema.Target.LuaModule
import FlatSchema.Target.PythonModule

/-!
# Generation

The target of each language. `Target.publish` of the target does the rest.
-/

namespace FlatSchema

/-- The target of a language with its options chosen. -/
def Language.target : Language → Options → Target
  | .python => Python.target
  | .go => Go.target
  | .csharp => CSharp.target
  | .lua => Lua.target
  | .jsonSchema => JsonSchema.target
  | .fbs => Fbs.target

end FlatSchema

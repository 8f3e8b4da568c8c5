import FlatSchema.Naming.Case
import FlatSchema.Path
import FlatSchema.Schema.Namespace

/-!
# Names in a target language

The rules by which the names of a schema become names of types, fields, files and so on in a target language, and the way in
which reserved words are avoided.
-/

namespace FlatSchema

/-- The naming rules of a target language. -/
structure Namer where
  types : Case := .keep
  constants : Case := .keep
  methods : Case := .keep
  functions : Case := .keep
  fields : Case := .keep
  params : Case := .keep
  variants : Case := .keep
  /-- Between the name of an enum and that of a variant. -/
  variantSeparator : String := ""
  namespaces : Case := .keep
  /-- Between the components of a namespace. -/
  scopeSeparator : String := ""
  /-- Around the name of a type in the object API. -/
  objectPrefix : String := ""
  objectSuffix : String := ""
  /-- Around a reserved word. -/
  keywordPrefix : String := ""
  keywordSuffix : String := ""
  /-- Reserved words are looked for before the case is converted, not after. -/
  escapeFirst : Bool := false
  files : Case := .keep
  directories : Case := .keep
  fileSuffix : String := ""
  /-- The extension of a file, with its dot. -/
  fileExtension : String := ""
  /-- The reserved words. -/
  keywords : List String := []
deriving Repr, Inhabited

namespace Namer

/-- Whether a name is reserved. -/
def isKeyword (n : Namer) (name : String) : Bool := n.keywords.contains name

/-- A name, changed if it is reserved. -/
def escape (n : Namer) (name : String) : String :=
  if n.isKeyword name then n.keywordPrefix ++ name ++ n.keywordSuffix else name

/-- A name in a given case, changed if it is reserved. -/
def format (n : Namer) (k : Case) (name : String) : String :=
  if n.escapeFirst then k.apply (n.escape name) else n.escape (k.apply name)

/-- The name of a type. -/
def typeName (n : Namer) (name : String) : String := n.format n.types name

/-- The name of a constant. -/
def constant (n : Namer) (name : String) : String := n.format n.constants name

/-- The name of a method. -/
def method (n : Namer) (name : String) : String := n.format n.methods name

/-- The name of a function that belongs to no type. -/
def function (n : Namer) (name : String) : String := n.format n.functions name

/-- The name of a field of an object. -/
def field (n : Namer) (name : String) : String := n.format n.fields name

/-- The name of a parameter or local variable. -/
def param (n : Namer) (name : String) : String := n.format n.params name

/-- The name of a variant without its enum. -/
def variant (n : Namer) (name : String) : String := n.format n.variants name

/-- The type of a definition in the object API. Reserved words need no change there. -/
def objectType (n : Namer) (name : String) : String :=
  n.objectPrefix ++ n.types.apply name ++ n.objectSuffix

/-- A variant with the name of its enum. -/
def enumVariant (n : Namer) (enum variant : String) : String :=
  n.typeName enum ++ n.variantSeparator ++ n.variant variant

/-- A component of a namespace. -/
def component (n : Namer) (name : String) : String := n.format n.namespaces name

/-- A whole namespace. -/
def scope (n : Namer) (s : Namespace) : String :=
  n.scopeSeparator.intercalate (s.components.map n.component)

/-- A type with its namespace. -/
def scopedType (n : Namer) (s : Namespace) (name : String) : String :=
  if s.isRoot then n.typeName name else n.scope s ++ n.scopeSeparator ++ n.typeName name

/-- The directory of a namespace. -/
def directory (n : Namer) (s : Namespace) : String :=
  Path.ofComponents (s.components.map n.directories.apply)

/-- The file of a definition. -/
def file (n : Namer) (name : String) : String :=
  n.files.apply name ++ n.fileSuffix ++ n.fileExtension

end Namer

end FlatSchema

import FlatSchema.Document.Basic
import FlatSchema.Schema.Error

/-!
# Names of definitions

The table of all qualified names that a document declares. A name used inside a namespace denotes the definition in the
innermost enclosing namespace that has one.
-/

namespace FlatSchema

/-- What a name denotes: a definition by its place among the enums or among the structs. -/
inductive Ref
  | enum (i : Nat)
  | struct (i : Nat)
deriving DecidableEq, Repr

/-- The qualified names of a document. -/
abbrev NameTable := List (String × Ref)

/-- The name of an enum with its namespace. -/
def EnumDoc.qualifiedName (e : EnumDoc) : String :=
  (Namespace.ofDotted e.scope).qualify e.name "."

/-- The name of a struct or table with its namespace. -/
def StructDoc.qualifiedName (s : StructDoc) : String :=
  (Namespace.ofDotted s.scope).qualify s.name "."

/-- What an enum is called in errors. -/
def EnumDoc.kind (e : EnumDoc) : DefKind := if e.isUnion then .union else .enum

/-- What a struct or table is called in errors. -/
def StructDoc.kind (s : StructDoc) : DefKind := if s.fixed then .struct else .table

namespace NameTable

/-- The declarations of a document in order: enums and unions, then structs and tables. -/
def declarations (doc : SchemaDoc) : List (DefKind × String × Ref) :=
  doc.enums.zipIdx.map (fun (e, i) => (e.kind, e.qualifiedName, .enum i)) ++
    doc.structs.zipIdx.map (fun (s, i) => (s.kind, s.qualifiedName, .struct i))

/-- Adds declarations to a table. A name that is taken is refused. -/
def extend (table : NameTable) : List (DefKind × String × Ref) → Except LoadError NameTable
  | [] => .ok table
  | (kind, name, ref) :: rest =>
    if (table.lookup name).isSome then .error (.duplicate kind name)
    else extend (table ++ [(name, ref)]) rest

/-- The table of a document. -/
def ofDocument (doc : SchemaDoc) : Except LoadError NameTable :=
  extend [] (declarations doc)

/-- What a name denotes inside a namespace, from the innermost enclosing namespace outward. -/
def find? (table : NameTable) (name : String) (scope : Namespace) : Option Ref :=
  (List.range (scope.components.length + 1)).reverse.findSome? fun n =>
    table.lookup (Namespace.qualify ⟨scope.components.take n⟩ name ".")

end NameTable

end FlatSchema

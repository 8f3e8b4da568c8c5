import FlatSchema.Document.Reader
import FlatSchema.Layout
import FlatSchema.Resolve.Definitions
import FlatSchema.Validity

/-!
# Loading schemas

From the text of a document to a schema that keeps all rules: the document is read, its names are resolved, its structs are
laid out, its root and identifier are found, and the result is checked.
-/

namespace FlatSchema

namespace Resolve

/-- The struct that a root is declared by: its qualified name, or a name that only one struct has. -/
def rootIndex? (names : NameTable) (structs : List StructDef) (name : String) : Option Nat :=
  match names.lookup name with
  | some (.struct i) => some i
  | _ =>
    match structs.zipIdx.filter (fun (s, _) => s.name == name) with
    | [(_, i)] => some i
    | _ => none

/-- The root table of a document. -/
def root (names : NameTable) (structs : List StructDef) : Option String → Except LoadError (Option Nat)
  | none => .ok none
  | some name =>
    match rootIndex? names structs name with
    | none => .error (.typeNotFound name)
    | some i =>
      if (structs[i]?.map (·.fixed)).getD false then .error (.violation (.rootTypeFixed name)) else .ok (some i)

/-- The identifier of a document: four ASCII characters. -/
def identifier : Option String → Except LoadError (Option String)
  | none => .ok none
  | some id =>
    if id.utf8ByteSize = 4 ∧ id.toList.all (fun c => c.toNat < 128) then .ok (some id)
    else .error (.invalidValue id "file_identifier" .identifierLength)

/-- Resolves the names of a document and lays out its structs. -/
def schema (doc : SchemaDoc) : Except LoadError Schema := do
  let names ← NameTable.ofDocument doc
  let enums ← doc.enums.mapM (enum names)
  let structs ← doc.structs.mapM (struct names enums)
  let structs ← Layout.placeAll structs
  let root ← root names structs doc.rootType
  let fileIdentifier ← identifier doc.fileIdentifier
  return {
    fileName := doc.fileName
    enums
    structs
    root
    fileIdentifier
    fileExtension := doc.fileExtension }

end Resolve

namespace Schema

/-- The schema of a document. -/
def ofDocument (doc : SchemaDoc) : Except LoadError Schema := do
  let s ← Resolve.schema doc
  s.validate
  return s

/-- Reads a document or fails. -/
def readDocument (text : String) : Except LoadError SchemaDoc :=
  match SchemaDoc.read? text with
  | some doc => .ok doc
  | none => .error .malformed

/-- The schema of the text of a document. -/
def ofText (text : String) : Except LoadError Schema := do
  ofDocument (← readDocument text)

/-- The schema of the text of a file, if the file could be read. The stem of the file's name serves a document without one. -/
def ofFile (stem : String) : Option String → Except LoadError Schema
  | none => .error .unreadable
  | some text => do
    let doc ← readDocument text
    ofDocument (if doc.fileName = "" then { doc with fileName := stem } else doc)

end Schema

end FlatSchema

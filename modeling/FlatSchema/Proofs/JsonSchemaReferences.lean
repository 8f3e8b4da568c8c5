import FlatSchema.Proofs.FilePaths
import FlatSchema.Proofs.JsonShape
import FlatSchema.Proofs.TypeText

/-!
# References of a JSON Schema

The document of a schema has one member for each definition that is written, with the schema of its values. All references in it
lead to definitions of the schema (`JsonSchema.Leads`), its numbers are in range and it is not nested deep. No other member can be
taken for a reference, since the keys that come from the schema are identifiers.
-/

namespace FlatSchema.JsonSchema

open Json

/-! ## The document -/

/-- The schema of a definition. -/
def definitionSchema (env : Env) : Definition → Except GenError Json
  | .enum _ e => .ok (enumSchema e)
  | .struct _ d => objectSchema env d

/-- The member for a definition. -/
def member (env : Env) (d : Definition) : Except GenError (String × Json) := do
  return (env.namer.scopedType d.scope d.name, ← definitionSchema env d)

/-- The member for a struct or table. -/
def structMember (env : Env) (d : StructDef) : Except GenError (String × Json) := do
  return (env.namer.scopedType d.scope d.name, ← objectSchema env d)

/-- The members for the enums and unions. -/
def enumMembers (env : Env) : List (String × Json) :=
  (env.schema.enums.filter (fun e => !e.generated)).map fun e => (env.namer.scopedType e.scope e.name, enumSchema e)

/-- The document with some members for the definitions. -/
def document (env : Env) (members : List (String × Json)) : Json :=
  .object ([("$schema", .string draft), ("definitions", .object members)] ++
    match env.schema.rootStruct? with
    | some d => [("$ref", .string (path env d.scope d.name))]
    | none => [])

/-! ## References -/

/-- A reference leads to a definition of the schema. -/
def Leads (env : Env) (key : String) (value : Json) : Prop :=
  key = "$ref" → ∃ ref scope name, env.schema.nameAt? ref = some (scope, name) ∧ value = .string (path env scope name)

/-- A member of an object in the document: a reference leads somewhere, and the value is shaped in the same way. -/
def Fits (env : Env) (n : Nat) (m : String × Json) : Prop := Leads env m.1 m.2 ∧ Shaped (Leads env) n m.2

section Shapes

variable {env : Env} {t : TypeDesc} {j : Json} {n : Nat}

/-- A member that is no reference fits if its value does. -/
theorem Fits.of_ne {key : String} {value : Json} (hkey : key ≠ "$ref") (h : Shaped (Leads env) n value) :
    Fits env n (key, value) :=
  ⟨fun heq => absurd heq hkey, h⟩

/-- A reference to a definition of the schema fits. -/
theorem Fits.of_ref {r : Ref} {scope : Namespace} {name : String} (h : env.schema.nameAt? r = some (scope, name)) :
    Fits env n ("$ref", .string (path env scope name)) :=
  ⟨fun _ => ⟨r, scope, name, h, rfl⟩, .string _⟩

/-- An object fits if its members do. -/
theorem object_shaped {ms : List (String × Json)} (h : ∀ m ∈ ms, Fits env n m) :
    Shaped (Leads env) (n + 1) (.object ms) :=
  .object (fun m hm => (h m hm).1) fun m hm => (h m hm).2

/-- A reference to a definition leads to its entry. -/
theorem reference_shaped {r : Ref} {scope : Namespace} {name : String} (h : env.schema.nameAt? r = some (scope, name)) :
    Shaped (Leads env) (n + 1) (reference env scope name) :=
  object_shaped (List.forall_mem_singleton.2 (.of_ref h))

theorem ofType_shaped (name : String) : Shaped (Leads env) (n + 1) (ofType name) :=
  object_shaped (List.forall_mem_singleton.2 (.of_ne (by decide) (.string name)))

/-- The bounds of integer types are numbers that can be written as integers. -/
theorem range_inIntegerRange {b : BaseType} {low high : Int} (h : b.range = some (low, high)) :
    Number.inIntegerRange low = true ∧ Number.inIntegerRange high = true := by
  cases b <;> cases h <;> decide

/-- The references in the schema of an atom lead to entries, if those of unions do. -/
theorem atomSchema_shaped {union : TypeDesc → Except GenError Json}
    (hunion : ∀ j, union t = .ok j → Shaped (Leads env) (n + 1) j) (h : atomSchema env union t = .ok j) :
    Shaped (Leads env) (n + 1) j := by
  unfold atomSchema at h
  split at h
  next e he =>
    cases h
    unfold Schema.scalarEnum? Schema.enumOf? at he
    split at he
    next =>
      obtain ⟨i, _, hi⟩ := Option.bind_eq_some_iff.1 he
      exact reference_shaped (r := .enum i) (Option.map_eq_some_iff.2 ⟨e, hi, rfl⟩)
    next => cases he
  next =>
    split at h
    next => cases h; exact ofType_shaped _
    next => cases h; exact ofType_shaped _
    next => cases h; exact ofType_shaped _
    next => cases h; exact ofType_shaped _
    next =>
      obtain ⟨d, hd, h⟩ := bind_eq_ok.1 h
      cases h
      obtain ⟨i, _, hi⟩ := Schema.structOf?_eq_some.1 (Env.structOf_eq_ok.1 hd)
      exact reference_shaped (r := .struct i) (Option.map_eq_some_iff.2 ⟨d, hi, rfl⟩)
    next => exact hunion j h
    next =>
      split at h
      next low high hrange =>
        cases h
        obtain ⟨hlow, hhigh⟩ := range_inIntegerRange hrange
        refine object_shaped (List.forall_mem_cons.2 ⟨?_, List.forall_mem_cons.2 ⟨?_, List.forall_mem_singleton.2 ?_⟩⟩)
        · exact .of_ne (by decide) (.string _)
        · exact .of_ne (by decide) (.int hlow)
        · exact .of_ne (by decide) (.int hhigh)
      next =>
        cases h
        exact object_shaped nofun

/-- The layers of a type are arrays around the schema of its innermost elements. -/
theorem layers_shaped (hj : Shaped (Leads env) n j) (layers : List (BaseType × Nat)) : Shaped (Leads env) (n + layers.length)
    (layers.foldr (fun _ items => .object [("type", .string "array"), ("items", items)]) j) := by
  induction layers with
  | nil => exact hj
  | cons _ rest ih =>
    refine object_shaped (List.forall_mem_cons.2 ⟨?_, List.forall_mem_singleton.2 ?_⟩)
    · exact .of_ne (by decide) (.string _)
    · exact .of_ne (by decide) ih

/-- The references in the schema of a type lead to entries, two levels deeper for containers. -/
theorem schemaWith_shaped {union : TypeDesc → Except GenError Json}
    (hunion : ∀ j, union t.innermost = .ok j → Shaped (Leads env) (n + 1) j) (h : schemaWith env union t = .ok j) :
    Shaped (Leads env) (n + 3) j := by
  obtain ⟨atom, hatom, h⟩ := bind_eq_ok.1 h
  cases h
  have hlayers : t.layers.length ≤ 2 := by
    unfold TypeDesc.layers
    split <;> [split; skip] <;> simp
  exact (layers_shaped (atomSchema_shaped hunion hatom) t.layers).mono (by omega)

/-- The references in the schema of a type lead to entries. The nesting is bounded, since types do not nest. -/
theorem typeSchema_shaped (h : typeSchema env t = .ok j) : Shaped (Leads env) 7 j := by
  refine schemaWith_shaped (n := 4) (fun u hu => ?_) h
  obtain ⟨e, _, hu⟩ := bind_eq_ok.1 hu
  obtain ⟨payloads, hpayloads, hu⟩ := bind_eq_ok.1 hu
  cases hu
  refine object_shaped (List.forall_mem_singleton.2 (.of_ne (by decide) (.array fun p hp => ?_)))
  obtain ⟨v, _, hv⟩ := mapM_mem hpayloads p hp
  refine schemaWith_shaped (n := 0) ?_ hv
  exact nofun

/-- What holds of the members and of the one that may be added holds of all. -/
theorem forall_mem_putSome {Q : String × Json → Prop} {ms : List (String × Json)} {key : String} {value? : Option Json}
    (h : ∀ m ∈ ms, Q m) (hput : ∀ v, value? = some v → Q (key, v)) : ∀ m ∈ putSome ms key value?, Q m := by
  cases value? with
  | none => exact h
  | some v => exact forall_mem_put h (hput v rfl)

/-- A description is a text. -/
theorem description?_shaped {doc : List String} (h : description? doc = some j) : Shaped (Leads env) n j := by
  unfold description? at h
  dsimp only at h
  split at h
  · cases h
  · cases h
    exact .string _

/-- The references in the schema of a field lead to entries. -/
theorem fieldSchema_shaped {f : FieldDef} (hlength : f.type.isArray = true → f.type.length ≤ 65535)
    (h : fieldSchema env f = .ok j) : Shaped (Leads env) 7 j := by
  obtain ⟨base, hbase, h⟩ := bind_eq_ok.1 h
  cases h
  have hcount : ∀ v, (if f.type.isArray = true then some (Json.number (.int f.type.length)) else none) = some v →
      Shaped (Leads env) 6 v := by
    intro v hv
    split at hv
    next ha =>
      cases hv
      have hbounds : (-Int.pow 2 63 : Int) ≤ f.type.length ∧ (f.type.length : Int) < Int.pow 2 64 := by
        have hle := hlength ha
        have hlow : (-Int.pow 2 63 : Int) ≤ 0 := by decide
        have hhigh : (65535 : Int) < Int.pow 2 64 := by decide
        omega
      exact .int (by simpa [Number.inIntegerRange] using hbounds)
    next => cases hv
  refine object_shaped (forall_mem_putSome (forall_mem_putSome (forall_mem_putSome (forall_mem_putSome ?_ ?_) ?_) ?_) ?_)
  · cases typeSchema_shaped hbase with
    | object hm hv => exact fun m hmem => ⟨hm m hmem, hv m hmem⟩
    | _ => exact nofun
  · exact fun v hv => .of_ne (by decide) (hcount v hv)
  · exact fun v hv => .of_ne (by decide) (hcount v hv)
  · intro v hv
    split at hv
    · cases hv
      exact .of_ne (by decide) (.bool true)
    · cases hv
  · exact fun v hv => .of_ne (by decide) (description?_shaped hv)

/-- What is asked of the fields of a struct or table: no field is named like a reference, and arrays have a bounded length. -/
structure Regular (d : StructDef) : Prop where
  name : ∀ f ∈ d.fields, f.name ≠ "$ref"
  length : ∀ f ∈ d.fields, f.type.isArray = true → f.type.length ≤ 65535

/-- The references in the schema of a struct or table lead to entries. -/
theorem objectSchema_shaped {d : StructDef} (hd : Regular d) (h : objectSchema env d = .ok j) : Shaped (Leads env) 9 j := by
  obtain ⟨fields, hfields, h⟩ := bind_eq_ok.1 h
  cases h
  have hfits : ∀ m ∈ fields, Fits env 7 m := by
    intro m hm
    obtain ⟨f, hf, hm⟩ := mapM_mem hfields m hm
    obtain ⟨schema, hschema, hm⟩ := bind_eq_ok.1 hm
    cases hm
    exact .of_ne (hd.name f hf) (fieldSchema_shaped (hd.length f hf) hschema)
  refine object_shaped fun m hm => ?_
  simp only [List.mem_append, List.mem_singleton] at hm
  rcases hm with ((hm | rfl) | hm) | rfl
  · exact forall_mem_putSome (List.forall_mem_singleton.2 (.of_ne (by decide) (.string _)))
      (fun v hv => .of_ne (by decide) (description?_shaped hv)) m hm
  · refine .of_ne (by decide) (object_shaped ?_)
    exact List.foldlRecOn fields _ (motive := fun ms => ∀ m ∈ ms, Fits env 7 m) nofun
      fun ms hms m hm => forall_mem_put hms (hfits m hm)
  · split at hm
    · cases hm
    · rw [List.mem_singleton.1 hm]
      refine .of_ne (by decide) (.array fun v hv => ?_)
      obtain ⟨f, _, rfl⟩ := List.mem_map.1 hv
      exact .string _
  · exact .of_ne (by decide) (.bool false)

/-- The schema of an enum has no references. -/
theorem enumSchema_shaped (e : EnumDef) : Shaped (Leads env) (n + 2) (enumSchema e) := by
  refine object_shaped (List.forall_mem_cons.2 ⟨.of_ne (by decide) (.string _), List.forall_mem_singleton.2 ?_⟩)
  refine .of_ne (by decide) (.array fun v hv => ?_)
  obtain ⟨m, _, rfl⟩ := List.mem_map.1 hv
  exact .string _

/-- The references in the schema of a definition lead to entries. -/
theorem definitionSchema_shaped {d : Definition} (hregular : ∀ d ∈ env.schema.structs, Regular d) (hd : d.Within env.schema)
    (h : definitionSchema env d = .ok j) : Shaped (Leads env) 9 j := by
  cases d with
  | enum i e =>
    cases h
    exact enumSchema_shaped e
  | struct i d => exact objectSchema_shaped (hregular d hd) h

/-- The references in the document lead to definitions, and it is not nested deep. -/
theorem document_shaped {ms : List (String × Json)} (h : ∀ m ∈ ms, Fits env 9 m) :
    Shaped (Leads env) maxDepth (document env ms) := by
  have hdocument : Shaped (Leads env) 11 (document env ms) := by
    refine object_shaped fun m hm => ?_
    simp only [List.mem_append, List.mem_cons, List.not_mem_nil, or_false] at hm
    rcases hm with (rfl | rfl) | hm
    · exact .of_ne (by decide) (.string _)
    · exact .of_ne (by decide) (object_shaped h)
    · split at hm
      next d hd =>
        obtain ⟨i, _, hi⟩ := Option.bind_eq_some_iff.1 hd
        rw [List.mem_singleton.1 hm]
        exact .of_ref (r := .struct i) (Option.map_eq_some_iff.2 ⟨d, hi, rfl⟩)
      next => cases hm
  exact hdocument.mono (by decide)

end Shapes

/-! ## Keys and paths -/

/-- The key of a definition is its name behind the components of its namespace, with underscores between them. -/
theorem scopedType_eq (o : Options) (scope : Namespace) (name : String) :
    (namer o).scopedType scope name = scope.qualify name "_" := by
  have hkeep : ∀ text, (namer o).escape (Case.keep.apply text) = text := fun text => Case.keep_apply text
  have hscope : (namer o).scope scope = scope.join "_" := by
    show "_".intercalate (scope.components.map fun c => (namer o).escape (Case.keep.apply c)) = _
    rw [List.map_congr_left fun c _ => hkeep c, List.map_id']
    rfl
  unfold Namer.scopedType Namespace.qualify
  rw [hscope]
  simp only [show (namer o).typeName name = name from hkeep name]
  rfl

/-- The key of an entry is made of the characters of words. -/
theorem key_isWordChar (o : Options) {scope : Namespace} {name : String} (hscope : scope.Named)
    (hname : isIdentifier name = true) : ∀ c ∈ ((namer o).scopedType scope name).toList, isWordChar c = true := by
  have hunderscore : ∀ c ∈ "_".toList, isWordChar c = true := by
    intro c hc
    rw [List.mem_singleton.1 hc]
    decide
  rw [scopedType_eq, Namespace.qualify_eq]
  refine Namespace.forall_mem_intercalate hunderscore fun p hp => ?_
  obtain ⟨_, _, _, hall⟩ := isIdentifier_chars (hscope.isIdentifier_qualified hname p hp)
  exact hall

/-- No definition has the key of references. -/
theorem key_ne (o : Options) {scope : Namespace} {name : String} (hscope : scope.Named)
    (hname : isIdentifier name = true) : (namer o).scopedType scope name ≠ "$ref" := by
  intro heq
  have hword := key_isWordChar o hscope hname '$' (by rw [heq]; decide)
  exact absurd hword (by decide)

/-! ## The members of a schema -/

section Members

variable {doc : SchemaDoc} {names : NameTable} {declared : List StructDef} {s : Schema} {o : Options}

/-- The arrays of a schema that is loaded have lengths of 16 bits. -/
theorem regular_of_loaded (h : Loaded doc names declared s) : ∀ d ∈ s.structs, Regular d := by
  intro d hd
  have hnames := Validity.checkNames_eq_ok.1 (Schema.validate_eq_ok.1 h.valid).1
  refine ⟨fun f hf heq => ?_, fun f hf ha => ((h.held hd hf).arrayElement ha).2.1⟩
  have hname := hnames.2.2.2 d hd f hf
  rw [heq] at hname
  exact absurd hname (by decide)

/-- All entries of the document fit. -/
theorem members_fit (h : Loaded doc names declared s) {ms : List (String × Json)}
    (hms : s.definitions.mapM (member ((target o).env s o)) = .ok ms) : ∀ m ∈ ms, Fits ((target o).env s o) 9 m := by
  intro m hm
  obtain ⟨d, hd, hm⟩ := mapM_mem hms m hm
  obtain ⟨j, hj, hm⟩ := bind_eq_ok.1 hm
  cases hm
  obtain ⟨hname, hscope⟩ := h.definition_named hd
  exact .of_ne (key_ne o hscope hname) (definitionSchema_shaped (regular_of_loaded h) (Schema.definitions_within d hd) hj)

end Members

end FlatSchema.JsonSchema

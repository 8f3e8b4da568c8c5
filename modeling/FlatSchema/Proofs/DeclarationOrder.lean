import FlatSchema.Proofs.RenamedLayout
import FlatSchema.Proofs.RenamedResolution

/-!
# The order of declarations

Loading does not depend on the order in which a document declares its enums and its structs. A document with the declarations in
another order loads exactly when the document does, and gives the same definitions at their new places
(`Schema.ofDocument_perm`). The steps of loading commute with renaming one by one; here are the rules of valid schemas, and the
assembly.
-/

namespace FlatSchema

namespace Schema.Reordered

open Validity

variable {r : Renaming} {s s' : Schema}

/-! ## Valid schemas -/

/-- The struct of a type is found at its new place. -/
theorem structOf?_rename (h : s.Reordered r s') (t : TypeDesc) :
    s'.structOf? (t.rename r) = (s.structOf? t).map (StructDef.rename r) :=
  h.structs.bind_getElem? t.structRef

/-- A type of tables stays one. -/
theorem isTable_rename (h : s.Reordered r s') (t : TypeDesc) : s'.isTable (t.rename r) = s.isTable t := by
  unfold Schema.isTable
  rw [h.structOf?_rename, TypeDesc.rename_isStruct]
  cases s.structOf? t <;> rfl

/-- A type of fixed structs stays one. -/
theorem isFixedStruct_rename (h : s.Reordered r s') (t : TypeDesc) : s'.isFixedStruct (t.rename r) = s.isFixedStruct t := by
  unfold Schema.isFixedStruct
  rw [h.structOf?_rename]
  cases s.structOf? t <;> rfl

/-- A struct holds arrays as it did. -/
theorem containsArray_rename (h : s.Reordered r s') :
    ∀ (depth : Nat) (d : StructDef), containsArray s' depth (d.rename r) = containsArray s depth d
  | 0, _ => rfl
  | depth + 1, d => by
    rw [containsArray, containsArray, StructDef.rename_fields, List.any_map]
    refine congrArg (List.any d.fields) (funext fun f => ?_)
    rw [Function.comp_apply, FieldDef.rename_type, h.structOf?_rename, TypeDesc.rename_isArray, TypeDesc.rename_isStruct]
    cases s.structOf? f.type with
    | none => rfl
    | some inner =>
      dsimp only [Option.map_some]
      rw [h.containsArray_rename depth inner]

/-- What an array may hold stays allowed. -/
theorem arrayElementOk_rename (h : s.Reordered r s') (t : TypeDesc) : arrayElementOk s' (t.rename r) = arrayElementOk s t := by
  unfold arrayElementOk
  -- the depth of the search is the number of structs, which is the same in any order
  rw [h.structOf?_rename, h.isFixedStruct_rename, TypeDesc.rename_isScalar, TypeDesc.rename_isStruct, h.structs.length_eq]
  cases s.structOf? t with
  | none => rfl
  | some inner =>
    dsimp only [Option.map_some]
    rw [h.containsArray_rename]

/-- The field of a fixed struct passes as it did. -/
theorem checkStructField_rename (h : s.Reordered r s') (d : StructDef) (f : FieldDef) :
    checkStructField s' (d.rename r) (f.rename r) = checkStructField s d f := by
  unfold checkStructField
  dsimp only
  rw [FieldDef.rename_type, h.isFixedStruct_rename, TypeDesc.rename_elementType, h.arrayElementOk_rename]
  rfl

/-- The fields of a struct take the bytes they did. -/
theorem fieldBytes_rename (h : s.Reordered r s') (d : StructDef) : fieldBytes s' (d.rename r) = fieldBytes s d := by
  unfold fieldBytes
  rw [StructDef.rename_fields, List.map_map]
  refine congrArg (List.foldr _ 0) (List.map_congr_left fun f _ => ?_)
  exact congrArg (· + f.padding) (Layout.inlineSize_rename h.structs f.type)

/-- The field of a table passes as it did. -/
theorem checkTableField_rename (h : s.Reordered r s') (d : StructDef) (f : FieldDef) :
    checkTableField s' (d.rename r) (f.rename r) = checkTableField s d f := by
  have hnested : ∀ i, nestedOk s' (f.type.rename r) (r.struct i) = nestedOk s f.type i := by
    intro i
    unfold nestedOk
    rw [h.structs i, Option.map_map]
    rfl
  unfold checkTableField
  dsimp only
  rw [show (f.rename r).nested = f.nested.map r.struct from rfl, FieldDef.rename_type]
  cases f.nested with
  | none => rfl
  | some i =>
    dsimp only [Option.map_some]
    rw [hnested]
    rfl

/-- The key of a table passes as it did. -/
theorem checkKey_rename (d : StructDef) : checkKey (d.rename r) = checkKey d := by
  unfold checkKey
  rw [StructDef.rename_fields, List.filter_map]
  rw [show (fun f : FieldDef => f.key) ∘ FieldDef.rename r = fun f => f.key from rfl]
  generalize d.fields.filter (fun f => f.key) = keys
  rcases keys with _ | ⟨f, _ | ⟨g, rest⟩⟩ <;> rfl

/-- A struct passes if it did. -/
theorem checkStruct_iff (h : s.Reordered r s') (d : StructDef) :
    checkStruct s' (d.rename r) = .ok () ↔ checkStruct s d = .ok () := by
  have hfixed : (d.rename r).fixed = d.fixed := rfl
  have hsize : (d.rename r).byteSize = d.byteSize := rfl
  simp only [checkStruct_eq_ok, checkFixed_eq_ok, StructDef.rename_fields, hfixed, hsize, List.forall_mem_map, ne_eq,
    List.map_eq_nil_iff, h.fieldBytes_rename, h.checkStructField_rename, h.checkTableField_rename, checkKey_rename]

/-- Members pass as they did. -/
theorem checkMembers_rename (h : s.Reordered r s') (e : EnumDef) (low high : Int) :
    ∀ (seen : List String) (vals : List EnumVal),
      checkMembers s' (e.rename r) low high seen (vals.map (EnumVal.rename r)) = checkMembers s e low high seen vals
  | _, [] => rfl
  | seen, v :: rest => by
    have ih := fun seen => h.checkMembers_rename e low high seen rest
    rw [List.map_cons, checkMembers, checkMembers]
    simp only [show (v.rename r).payload = v.payload.rename r from rfl, h.isTable_rename, ih]
    rfl

/-- An enum passes as it did. -/
theorem checkEnum_rename (h : s.Reordered r s') (e : EnumDef) : checkEnum s' (e.rename r) = checkEnum s e := by
  unfold checkEnum
  rw [show (e.rename r).underlying = e.underlying from rfl, EnumDef.rename_vals]
  cases e.underlying.base.range with
  | none => rfl
  | some range => exact h.checkMembers_rename e range.1 range.2 [] e.vals

/-- The root passes as it did. -/
theorem checkRoot_rename (h : s.Reordered r s') : checkRoot s' = checkRoot s := by
  unfold checkRoot Schema.rootStruct?
  rw [h.root, h.structs.bind_getElem?]
  cases s.root.bind (s.structs[·]?) <;> rfl

/-- The names of a schema are the same at their new places. -/
theorem checkNames_iff (h : s.Reordered r s') : checkNames s' = .ok () ↔ checkNames s = .ok () := by
  unfold checkNames
  simp only [seq_eq_ok, forM_eq_ok, h.enums.forall_mem, h.structs.forall_mem, EnumDef.rename_vals,
    StructDef.rename_fields, List.forall_mem_map]
  rfl

/-- A schema at the new places keeps all rules if the schema does. -/
theorem validate_iff (h : s.Reordered r s') : s'.validate = .ok () ↔ s.validate = .ok () := by
  simp only [Schema.validate_eq_ok, h.checkNames_iff, h.enums.forall_mem, h.structs.forall_mem, h.checkEnum_rename,
    h.checkStruct_iff, h.checkRoot_rename]

end Schema.Reordered

/-! ## Documents -/

/-- A document with its declarations in another order gives the schema at the new places. -/
theorem SchemaDoc.Reordered.ofDocument {r : Renaming} {doc doc' : SchemaDoc} {s : Schema} (h : doc.Reordered r doc')
    (hs : Schema.ofDocument doc = .ok s) : ∃ s', Schema.ofDocument doc' = .ok s' ∧ s.Reordered r s' := by
  obtain ⟨⟨names, declared, hl⟩, hname, hidentifier, hextension⟩ := Schema.ofDocument_eq_ok.1 hs
  obtain ⟨names', htable, hnames⟩ := h.nameTable hl.table
  obtain ⟨enums', henums, hmovedEnums⟩ := h.enums.mapM (Resolve.enum_rename hnames) hl.enums
  obtain ⟨declared', hdeclared, hmovedDeclared⟩ := h.structs.mapM (Resolve.struct_rename hnames hmovedEnums) hl.structs
  obtain ⟨structs', hlayout, hmoved⟩ := Layout.placeAll_moved hmovedDeclared hl.layout
  have hroot : Resolve.root names' structs' doc'.rootType = .ok (s.root.map r.struct) := by
    rw [Resolve.root_rename hnames hmoved, h.rootType, hl.root]
    rfl
  let s' : Schema :=
    { s with
      enums := enums'
      structs := structs'
      root := s.root.map r.struct }
  have hreordered : s.Reordered r s' := ⟨rfl, hmovedEnums, hmoved, rfl, rfl, rfl⟩
  have hloaded : Loaded doc' names' declared' s' :=
    ⟨htable, henums, hdeclared, hlayout, hroot, hreordered.validate_iff.2 hl.valid⟩
  refine ⟨s', Schema.ofDocument_eq_ok.2 ⟨⟨names', declared', hloaded⟩, ?_, ?_, ?_⟩, hreordered⟩
  · exact hname.trans h.fileName.symm
  · rw [h.fileIdentifier]
    exact hidentifier
  · exact hextension.trans h.fileExtension.symm

/-- Loading does not depend on the order of declarations. A permutation of the enums and of the structs of a document gives every
definition a new place. The document in the new order gives a schema exactly when the document does, and then every definition
is found at its new place, unchanged but for the places it refers to. -/
theorem Schema.ofDocument_perm {doc : SchemaDoc} {enums : List EnumDoc} {structs : List StructDoc}
    (henums : doc.enums.Perm enums) (hstructs : doc.structs.Perm structs) :
    (∃ r, doc.Reordered r { doc with enums, structs }) ∧
    (Returns (Schema.ofDocument doc) ↔ Returns (Schema.ofDocument { doc with enums, structs })) ∧
    ∀ r, doc.Reordered r { doc with enums, structs } → ∀ s s', Schema.ofDocument doc = .ok s →
      Schema.ofDocument { doc with enums, structs } = .ok s' → s.Reordered r s' := by
  obtain ⟨p, hp⟩ := Moved.of_perm henums
  obtain ⟨q, hq⟩ := Moved.of_perm hstructs
  have hreordered : doc.Reordered ⟨p, q⟩ { doc with enums, structs } := ⟨rfl, hp, hq, rfl, rfl, rfl⟩
  refine ⟨⟨_, hreordered⟩, ⟨?_, ?_⟩, fun r hr s s' hs hs' => ?_⟩
  · rintro ⟨s, hs⟩
    obtain ⟨s', hs', _⟩ := hreordered.ofDocument hs
    exact ⟨s', hs'⟩
  · rintro ⟨s', hs'⟩
    obtain ⟨s, hs, _⟩ := hreordered.symm.ofDocument hs'
    exact ⟨s, hs⟩
  · obtain ⟨s'', hs'', hmoved⟩ := hr.ofDocument hs
    rw [hs'] at hs''
    cases hs''
    exact hmoved

/-- The structs of the sample stand before the structs inside them, and in the other order behind them. -/
theorem sampleDoc_reversed :
    ∃ s s' r, Schema.ofDocument sampleDoc = .ok s ∧
      Schema.ofDocument { sampleDoc with enums := sampleDoc.enums.reverse, structs := sampleDoc.structs.reverse } = .ok s' ∧
      s.Reordered r s' ∧ s.root = some 2 ∧ s'.root = some 0 := by
  obtain ⟨s, hs, hroot⟩ := Schema.exists_ofDocument sampleDoc Schema.root (some 2) (by decide +kernel)
  obtain ⟨s', hs', hroot'⟩ := Schema.exists_ofDocument
    { sampleDoc with enums := sampleDoc.enums.reverse, structs := sampleDoc.structs.reverse } Schema.root (some 0)
    (by decide +kernel)
  obtain ⟨⟨r, hr⟩, _, hall⟩ := Schema.ofDocument_perm (List.reverse_perm sampleDoc.enums).symm
    (List.reverse_perm sampleDoc.structs).symm
  exact ⟨s, s', r, hs, hs', hall r hr s s' hs hs', hroot, hroot'⟩

end FlatSchema

import FlatSchema.Proofs.GoTemplate

/-!
# The shape of Go packages

Every Go generator fills in a template. So its code is balanced, and depends on the package in the names of definitions alone.
-/

namespace FlatSchema.Go

open Code

set_option synthInstance.maxSize 1000

variable {env : Env} {fixed : List String} {i : Nat} {t : TypeDesc} {d : StructDef} {f : FieldDef} {e : EnumDef} {v : EnumVal}
  {p : StructParam} {receiver value name variant table list item put fallback : String} {q : Namespace → Phrase} {c : Namespace → Code}

/-! ## Names and types -/

instance spelled_enumName [Known env e.scope] : Spelled env fun here => Site.enumName ⟨env, here⟩ e := by
  dsimp +instances only [Site.enumName]
  infer_instance

instance spelled_structName [Known env d.scope] : Spelled env fun here => Site.structName ⟨env, here⟩ d := by
  dsimp +instances only [Site.structName]
  infer_instance

instance spelled_objectName [Known env d.scope] : Spelled env fun here => Site.objectName ⟨env, here⟩ d := by
  dsimp +instances only [Site.objectName]
  infer_instance

instance uniform_readAtom : Uniform env fixed fun here => Site.readAtom ⟨env, here⟩ t := by
  dsimp +instances only [Site.readAtom]
  cases he : env.schema.scalarEnum? t with
  | some e =>
    have := Known.of_scalarEnum? he
    infer_instance
  | none => infer_instance

instance uniform_readType : Uniform env fixed fun here => Site.readType ⟨env, here⟩ t := by
  unfold Site.readType
  infer_instance

instance uniform_objectAtom : Uniform env fixed fun here => Site.objectAtom ⟨env, here⟩ t := by
  dsimp +instances only [Site.objectAtom]
  cases he : env.schema.scalarEnum? t with
  | some e =>
    have := Known.of_scalarEnum? he
    infer_instance
  | none => infer_instance

/-- The layers of a type are the same in every package. -/
theorem spelled_layers (layers : List (BaseType × Nat)) (hq : Spelled env q) :
    Spelled env fun here => layers.foldr (fun _ (p : Phrase) => "[]" ++ p) (q here) := by
  induction layers with
  | nil => exact hq
  | cons layer layers ih =>
    simp only [List.foldr_cons]
    infer_instance

instance uniform_objectType : Uniform env fixed fun here => Site.objectType ⟨env, here⟩ t := by
  unfold Site.objectType
  exact uniform_objectAtom.bind fun q hq => .of_eq_ok (fun _ => rfl) (spelled_layers t.layers hq)

instance spelled_castToEnum : Spelled env fun here => Site.castToEnum ⟨env, here⟩ t value := by
  dsimp +instances only [Site.castToEnum]
  cases he : env.schema.scalarEnum? t with
  | some e =>
    have := Known.of_scalarEnum? he
    infer_instance
  | none => infer_instance

instance written_ifPresent [Written env fixed c] : Written env fixed fun here => ifPresent f (c here) fallback := by
  unfold ifPresent
  infer_instance

instance written_returns [Spelled env q] : Written env fixed fun here => returns (q here) := by
  unfold returns
  infer_instance

instance written_newIfNil [Spelled env q] : Written env fixed fun here => newIfNil (q here) := by
  unfold newIfNil
  infer_instance

/-! ## Readers -/

instance written_readerType : Written env fixed fun here => readerType ⟨env, here⟩ d := by
  dsimp +instances only [readerType]
  infer_instance

instance written_readerMethods : Written env fixed fun here => readerMethods ⟨env, here⟩ d := by
  dsimp +instances only [readerMethods, Site.receiver]
  infer_instance

instance uniform_structArray : Uniform env fixed fun here => structArray ⟨env, here⟩ receiver f := by
  dsimp +instances only [structArray, Site.accessor, Site.getter, Site.method]
  infer_instance

instance uniform_structAccessor : Uniform env fixed fun here => structAccessor ⟨env, here⟩ receiver f := by
  dsimp +instances only [structAccessor, Site.accessor, Site.getter, Site.method]
  infer_instance

instance uniform_structMutator : Uniform env fixed fun here => structMutator ⟨env, here⟩ receiver f := by
  dsimp +instances only [structMutator, Site.accessor, Site.method, Site.castToNumber]
  infer_instance

instance uniform_structReader : Uniform env fixed fun here => structReader ⟨env, here⟩ d := by
  dsimp +instances only [structReader, Site.receiver]
  infer_instance

instance written_rootFunctions : Written env fixed fun here => rootFunctions ⟨env, here⟩ i d := by
  dsimp +instances only [rootFunctions]
  generalize (if env.schema.isRoot i = true then env.schema.fileIdentifier else none) = identifier
  cases identifier <;> infer_instance

instance uniform_byKeyAccessor [Known env d.scope] : Uniform env fixed fun here => byKeyAccessor ⟨env, here⟩ receiver f d := by
  dsimp +instances only [byKeyAccessor, Site.accessor]
  cases d.fixed <;> cases d.keyField? <;> infer_instance

instance uniform_elementAccessor : Uniform env fixed fun here => elementAccessor ⟨env, here⟩ receiver f := by
  dsimp +instances only [elementAccessor, Site.accessor, Site.getter, Site.method]
  infer_instance

instance uniform_bytesAccessors : Uniform env fixed fun here => bytesAccessors ⟨env, here⟩ receiver f := by
  dsimp +instances only [bytesAccessors, Site.accessor]
  cases f.nested <;> infer_instance

instance uniform_vectorAccessors : Uniform env fixed fun here => vectorAccessors ⟨env, here⟩ receiver f := by
  dsimp +instances only [vectorAccessors, Site.accessor, Site.isByte]
  infer_instance

instance uniform_tableAccessors : Uniform env fixed fun here => tableAccessors ⟨env, here⟩ receiver f := by
  dsimp +instances only [tableAccessors, Site.accessor, Site.getter, Site.method]
  cases f.type.base <;> infer_instance

instance uniform_tableMutator : Uniform env fixed fun here => tableMutator ⟨env, here⟩ receiver f := by
  dsimp +instances only [tableMutator, Site.accessor, Site.method, Site.castToNumber]
  infer_instance

instance written_keyCompare : Written env fixed fun here => keyCompare ⟨env, here⟩ d f := by
  dsimp +instances only [keyCompare, Site.accessor]
  infer_instance

instance written_keyOrder : Written env fixed fun here => keyOrder ⟨env, here⟩ f := by
  dsimp +instances only [keyOrder, Site.accessor, branches]
  infer_instance

/-- The search by a string key is the one thing that compares bytes. -/
theorem uniform_lookupByKey (h : f.type.isString = true → bytesImport ∈ fixed) :
    Uniform env fixed fun here => lookupByKey ⟨env, here⟩ d f := by
  have hbytes : Written env fixed fun _ => when f.type.isString (require bytesImport) := by
    unfold Code.when
    split
    next hstring => exact Written.require (h hstring)
    next => infer_instance
  have hwhen : ∀ c : Code, when f.type.isString (require bytesImport ++ c) =
      when f.type.isString (require bytesImport) ++ when f.type.isString c := by
    intro c
    cases f.type.isString <;> rfl
  dsimp +instances only [lookupByKey, Site.receiver, branches]
  simp only [hwhen]
  infer_instance

/-- What reads a table is the same from everywhere, if the import that compares keys is counted in. -/
theorem uniform_tableReader (h : ∀ key, d.keyField? = some key → key.type.isString = true → bytesImport ∈ fixed) :
    Uniform env fixed fun here => tableReader ⟨env, here⟩ i d := by
  have hsearch : ∀ key, d.keyField? = some key → Uniform env fixed fun here => lookupByKey ⟨env, here⟩ d key :=
    fun key hkey => uniform_lookupByKey (h key hkey)
  dsimp +instances only [tableReader, Site.receiver]
  revert hsearch
  cases d.keyField? with
  | none =>
    intro _
    infer_instance
  | some key =>
    intro hsearch
    have hkey := hsearch key rfl
    infer_instance

/-! ## Builders -/

instance written_plan : Written env fixed fun here => (spelling ⟨env, here⟩).code i (StructPlan.of env.schema d).ops := by
  have hkeeps : BuilderSpelling.Keeps (fun s => ∃ text : String, s = .line text) (spelling ⟨env, {}⟩) := {
    prep := fun _ _ => ⟨_, rfl⟩
    pad := fun _ => ⟨_, rfl⟩
    put := fun _ _ => ⟨_, rfl⟩
    loop := fun _ _ => ⟨_, rfl⟩
    loopEnd := .step rfl ⟨_, rfl⟩ }
  exact Written.of_balanced (c := (spelling ⟨env, {}⟩).code i (StructPlan.of env.schema d).ops) inferInstance

instance uniform_structParam : Uniform env fixed fun here => structParam ⟨env, here⟩ p := by
  dsimp +instances only [structParam]
  infer_instance

instance uniform_structBuilder : Uniform env fixed fun here => structBuilder ⟨env, here⟩ d := by
  dsimp +instances only [structBuilder, Site.structCreator]
  infer_instance

instance uniform_slotType : Uniform env fixed fun here => slotType ⟨env, here⟩ f := by
  dsimp +instances only [slotType]
  infer_instance

instance uniform_addFunctions : Uniform env fixed fun here => addFunctions ⟨env, here⟩ name f := by
  dsimp +instances only [addFunctions, Site.accessor, Site.method, Site.castToNumber]
  infer_instance

instance written_requiredChecks : Written env fixed fun _ => requiredChecks d := by
  unfold requiredChecks
  infer_instance

instance uniform_createFunction : Uniform env fixed fun here => createFunction ⟨env, here⟩ d := by
  dsimp +instances only [createFunction, Site.accessor]
  infer_instance

instance uniform_tableBuilders : Uniform env fixed fun here => tableBuilders ⟨env, here⟩ d := by
  dsimp +instances only [tableBuilders]
  infer_instance

/-! ## Enums and unions -/

/-- The type of an enum asks for one import. -/
theorem written_enumType (h : strconvImport ∈ fixed) : Written env fixed fun here => enumType ⟨env, here⟩ e := by
  have hstrconv : Written env fixed fun _ => require strconvImport := .require h
  dsimp +instances only [enumType]
  infer_instance

instance uniform_variantCases {body : Namespace → EnumVal → String → Except GenError Code}
    [∀ v variant, Uniform env fixed fun here => body here v variant] :
    Uniform env fixed fun here => variantCases ⟨env, here⟩ e (body here) := by
  dsimp +instances only [variantCases]
  infer_instance

instance uniform_packVariant : Uniform env fixed fun here => packVariant ⟨env, here⟩ v := by
  dsimp +instances only [packVariant]
  infer_instance

instance uniform_unpackVariant : Uniform env fixed fun here => unpackVariant ⟨env, here⟩ e v variant := by
  dsimp +instances only [unpackVariant]
  infer_instance

/-- The object of a union asks for the runtime and is otherwise the same from everywhere. -/
theorem uniform_unionObject (h : runtimeImport ∈ fixed) : Uniform env fixed fun here => unionObject ⟨env, here⟩ e := by
  have hruntime : Written env fixed fun _ => require runtimeImport := .require h
  dsimp +instances only [unionObject]
  infer_instance

/-- The code of an enum or union is the same from everywhere, up to the packages in front of names. -/
theorem uniform_enumCode (hstrconv : strconvImport ∈ fixed)
    (hruntime : (e.isUnion && env.options.objectApi) = true → runtimeImport ∈ fixed) :
    Uniform env fixed fun here => enumCode ⟨env, here⟩ e := by
  have henum : Written env fixed fun here => enumType ⟨env, here⟩ e := written_enumType hstrconv
  dsimp +instances only [enumCode]
  split
  next h =>
    have hobject : Uniform env fixed fun here => unionObject ⟨env, here⟩ e := uniform_unionObject (hruntime h)
    infer_instance
  next => infer_instance

/-! ## Objects -/

/-- The columns of an object's type are aligned for the package; their words are the same. -/
instance uniform_objectDecl : Uniform env fixed fun here => objectDecl ⟨env, here⟩ d := by
  dsimp +instances only [objectDecl, objectRows, nameWidth, typeWidth]
  refine Uniform.bind inferInstance fun rows hrows => .of_eq_ok (fun _ => rfl) ?_
  obtain ⟨as, hrows, has⟩ := hrows
  have hbody : ∀ nameWidth typeWidth : Namespace → Nat, Written env fixed fun here => (rows here).flatMap fun row =>
      line (Phrase.padded row.1 (nameWidth here) ++ " " ++ row.2.1.padded (typeWidth here) ++
        (s!" \x60json:\"{row.2.2}\"\x60" : String)) := by
    intro nameWidth typeWidth
    simp only [hrows, List.flatMap_map]
    refine .flatMap fun a ha => ?_
    obtain ⟨⟨name, hrow⟩, htype, key, hkey⟩ := has a ha
    simp only [hrow, hkey]
    have hname : Spelled env fun _ => { text := name } := .text
    have hfirst := hname.padded nameWidth
    have hsecond := Spelled.padded htype typeWidth
    infer_instance
  have := hbody (fun here => widest ((rows here).map (·.1))) fun here => widest ((rows here).map (·.2.1.text))
  exact inferInstanceAs (Written env fixed _)

instance written_unpackMethod : Written env fixed fun here => unpackMethod ⟨env, here⟩ d := by
  dsimp +instances only [unpackMethod]
  infer_instance

instance written_packMethod [Written env fixed c] : Written env fixed fun here => packMethod ⟨env, here⟩ d (c here) := by
  dsimp +instances only [packMethod]
  infer_instance

instance written_unpackToMethod [Written env fixed c] : Written env fixed fun here => unpackToMethod ⟨env, here⟩ d (c here) := by
  dsimp +instances only [unpackToMethod]
  infer_instance

instance uniform_unpackStructField : Uniform env fixed fun here => unpackStructField ⟨env, here⟩ f := by
  dsimp +instances only [unpackStructField, Site.accessor]
  infer_instance

instance uniform_structArgument : Uniform env fixed fun here => structArgument ⟨env, here⟩ p := by
  dsimp +instances only [structArgument]
  cases p.span.filter (·.ofStructs) <;> infer_instance

instance uniform_structObject : Uniform env fixed fun here => structObject ⟨env, here⟩ d := by
  dsimp +instances only [structObject, Site.structCreator]
  refine Uniform.bind inferInstance fun decl hdecl => .bind inferInstance fun arguments harguments => ?_
  obtain ⟨values, hvalues⟩ := Varying.map_snd harguments
  have : Written env fixed decl := hdecl
  have := Written.flatMap_fst harguments
  simp only [hvalues]
  infer_instance

instance written_noOffset : Written env fixed fun here => noOffset ⟨env, here⟩ f := by
  dsimp +instances only [noOffset, offsetName]
  infer_instance

instance written_packInline : Written env fixed fun here => packInline ⟨env, here⟩ table list put f := by
  dsimp +instances only [packInline, offsetName, Site.accessor]
  infer_instance

instance written_packOffsets : Written env fixed fun here => packOffsets ⟨env, here⟩ table list item f := by
  dsimp +instances only [packOffsets, offsetName, Site.accessor]
  infer_instance

instance written_packChild {kind : ChildKind} : Written env fixed fun here => packChild ⟨env, here⟩ table f kind := by
  dsimp +instances only [packChild, offsetName, variantMember, Site.accessor, Site.method, Site.castToNumber, Site.isByte]
  cases kind <;> infer_instance

instance written_packSlot {kind : SlotKind} : Written env fixed fun here => packSlot ⟨env, here⟩ table f kind := by
  dsimp +instances only [packSlot, offsetName, variantMember, Site.accessor]
  cases kind <;> infer_instance

instance uniform_unpackVector : Uniform env fixed fun here => unpackVector ⟨env, here⟩ f := by
  dsimp +instances only [unpackVector, Site.accessor]
  infer_instance

instance uniform_unpackTableField : Uniform env fixed fun here => unpackTableField ⟨env, here⟩ f := by
  dsimp +instances only [unpackTableField, Site.accessor, Site.isByte]
  cases f.type.base <;> infer_instance

instance uniform_tableObject : Uniform env fixed fun here => tableObject ⟨env, here⟩ d := by
  dsimp +instances only [tableObject]
  infer_instance

/-! ## Definitions -/

/-- The imports of the libraries that the code of a definition uses. -/
def libraries (env : Env) : Definition → List String
  | .enum _ e => strconvImport :: if e.isUnion && env.options.objectApi then [runtimeImport] else []
  | .struct _ d => runtimeImport :: if !d.fixed && d.keyField?.any (·.type.isString) then [bytesImport] else []

/-- The code of a fixed struct is the same from everywhere, with the imports of its libraries. -/
theorem uniform_structCode : Uniform env (libraries env (.struct i d)) fun here => structCode ⟨env, here⟩ d := by
  have hruntime : Written env (libraries env (.struct i d)) fun _ => require runtimeImport := .require List.mem_cons_self
  dsimp +instances only [structCode]
  infer_instance

/-- The code of a table is the same from everywhere, with the imports of its libraries. -/
theorem uniform_tableCode (htable : d.fixed = false) :
    Uniform env (libraries env (.struct i d)) fun here => tableCode ⟨env, here⟩ i d := by
  have hruntime : Written env (libraries env (.struct i d)) fun _ => require runtimeImport := .require List.mem_cons_self
  have hreader : Uniform env (libraries env (.struct i d)) fun here => tableReader ⟨env, here⟩ i d := by
    refine uniform_tableReader fun key hkey hstring => List.mem_cons_of_mem _ ?_
    rw [htable, hkey, Option.any_some, hstring]
    exact List.mem_cons_self
  dsimp +instances only [tableCode]
  infer_instance

/-- The code of a definition at a site, before it is set off from the one in front of it. -/
def definitionCode (site : Site) : Definition → Except GenError Code
  | .enum _ e => enumCode site e
  | .struct i d => if d.fixed then structCode site d else tableCode site i d

/-- What the target gives for a definition is its code, apart from what its file has declared before. -/
theorem define_eq (o : Options) (env : Env) (state : FileState) (x : Definition) : (target o).define env state x =
    definitionCode ⟨env, state.current⟩ x >>= fun code => pure (when (state.emitted > 0) blank ++ code) := by
  cases x with
  | enum i e => rfl
  | struct i d => cases hfixed : d.fixed <;> simp only [Target.define, definitionCode, hfixed] <;> rfl

/-- The code of a definition is the same from everywhere, with the imports of its libraries. -/
theorem uniform_definitionCode (env : Env) (x : Definition) :
    Uniform env (libraries env x) fun here => definitionCode ⟨env, here⟩ x := by
  cases x with
  | enum i e =>
    refine uniform_enumCode List.mem_cons_self fun h => List.mem_cons_of_mem _ ?_
    rw [if_pos h]
    exact List.mem_cons_self
  | struct i d =>
    cases hfixed : d.fixed with
    | true =>
      simp only [definitionCode, hfixed, if_true]
      exact uniform_structCode
    | false =>
      simp only [definitionCode, hfixed, Bool.false_eq_true, if_false]
      exact uniform_tableCode hfixed

/-- The code of a definition is a template, filled in for the package of the definition. -/
theorem define_template {o : Options} {env : Env} {state : FileState} {x : Definition} {c : Code}
    (h : (target o).define env state x = .ok c) :
    ∃ t : Template, t.Sound env (libraries env x) ∧ c = when (state.emitted > 0) blank ++ t.code ⟨env, state.current⟩ ∧
      ∀ here, definitionCode ⟨env, here⟩ x = .ok (t.code ⟨env, here⟩) := by
  rw [define_eq, bind_eq_ok] at h
  obtain ⟨code, hcode, hc⟩ := h
  rcases (uniform_definitionCode env x).cases with ⟨e, he⟩ | ⟨codes, hcodes, ⟨t, hsound, ht⟩⟩
  · rw [he state.current] at hcode
    cases hcode
  · have hall : ∀ here, definitionCode ⟨env, here⟩ x = .ok (t.code ⟨env, here⟩) := fun here => ht here ▸ hcodes here
    rw [hall state.current] at hcode
    cases hcode
    exact ⟨t, hsound, (pure_eq_ok.1 hc).symm, hall⟩

/-! ## The last line -/

variable {site : Site}

/-- The builder of a struct ends with a complete line. -/
theorem settles_structBuilder : Gives Settles (structBuilder site d) := by
  unfold structBuilder
  exact .after fun _ => .ok ((Settles.braced _ _).after _)

/-- The builders of a table end with a complete line. -/
theorem settles_tableBuilders : Gives Settles (tableBuilders site d) := by
  have hcreate : Gives Settles (createFunction site d) := by
    unfold createFunction
    exact .after fun _ => .ok ((Settles.braced _ _).after _)
  unfold tableBuilders
  refine .after fun adds => .ite_bind (hcreate.imp fun _ => Settles.calm) (.ok .nil) fun create h => ?_
  exact .ok (.append_calm ((Settles.braced _ _).after _) h)

/-- The code of a fixed struct ends as its builder does. -/
theorem settles_structCode : Gives Settles (structCode site d) := by
  unfold structCode
  exact .ite_after fun object => .after fun reader => settles_structBuilder.bind fun _ h => .ok (h.after _)

/-- The code of a table ends as its builders do. -/
theorem settles_tableCode : Gives Settles (tableCode site i d) := by
  unfold tableCode
  exact .ite_after fun object => .after fun reader => settles_tableBuilders.bind fun _ h => .ok (h.after _)

/-- The code of an enum or union ends with a complete line. -/
theorem settles_enumCode : Gives Settles (enumCode site e) := by
  have htype : Settles (enumType site e) := (Settles.braced _ _).after _
  have hobject : Gives Settles (unionObject site e) := by
    unfold unionObject
    exact .after fun _ => .after fun _ => .ok ((Settles.braced _ _).after _)
  unfold enumCode
  refine .ite_bind (hobject.imp fun _ => Settles.calm) (.ok .nil) fun object h => ?_
  exact .ok (.append_calm (htype.after _) h)

/-- The code of every definition is whole: it comes back to its indentation and leaves no line open. -/
theorem whole_define (o : Options) (state : FileState) (x : Definition) : Gives Whole ((target o).define env state x) := by
  intro c hc
  constructor
  · obtain ⟨t, _, rfl, _⟩ := define_template hc
    exact .append inferInstance (t.even_code _)
  · rw [define_eq] at hc
    have hcode : Gives Settles (definitionCode ⟨env, state.current⟩ x) := by
      cases x with
      | enum i e => exact settles_enumCode
      | struct i d => exact .ite settles_structCode settles_tableCode
    exact hcode.bind (fun code h => .ok (h.after _)) c hc

end FlatSchema.Go

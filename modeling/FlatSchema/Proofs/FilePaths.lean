import FlatSchema.Proofs.Paths
import FlatSchema.Proofs.Rendering
import Mathlib.Data.List.Nodup

/-!
# The paths of generated files

The paths of a run are made of the names of definitions and namespaces, the name of the schema and what the options say. Definitions
have different names, so their files have different paths unless two names of different kinds meet: a definition and the marker of
a package, two packages, or a namespace and the schema (`Language.Clashes`). If no two meet, all files of a run are kept.
-/

namespace FlatSchema

/-! ## Definitions -/

/-- The place of a definition. -/
def Definition.ref : Definition → Ref
  | .enum i _ => .enum i
  | .struct i _ => .struct i

namespace Schema

/-- A definition is an enum or a struct of the schema, with its index. -/
theorem mem_definitions {s : Schema} {d : Definition} (hd : d ∈ s.definitions) :
    (∃ i e, d = .enum i e ∧ s.enums[i]? = some e) ∨ ∃ i b, d = .struct i b ∧ s.structs[i]? = some b := by
  rcases List.mem_append.1 hd with hd | hd
  · obtain ⟨p, hp, rfl⟩ := List.mem_map.1 hd
    exact .inl ⟨p.2, p.1, rfl, List.mem_zipIdx_iff_getElem?.1 (List.mem_filter.1 hp).1⟩
  · obtain ⟨p, hp, rfl⟩ := List.mem_map.1 hd
    exact .inr ⟨p.2, p.1, rfl, List.mem_zipIdx_iff_getElem?.1 (List.mem_filter.1 hp).1⟩

/-- What a reference to a definition finds is its name and namespace. -/
theorem nameAt?_ref {s : Schema} {d : Definition} (hd : d ∈ s.definitions) : s.nameAt? d.ref = some (d.scope, d.name) := by
  rcases mem_definitions hd with ⟨i, e, rfl, he⟩ | ⟨i, b, rfl, hb⟩
  · exact Option.map_eq_some_iff.2 ⟨e, he, rfl⟩
  · exact Option.map_eq_some_iff.2 ⟨b, hb, rfl⟩

/-- The definitions of a schema are told apart by their indices. -/
theorem definitions_nodup (s : Schema) : s.definitions.Nodup := by
  refine List.nodup_append.2 ⟨List.pairwise_map.2 (((zipIdx_places _).sublist List.filter_sublist).imp ?_),
    List.pairwise_map.2 (((zipIdx_places _).sublist List.filter_sublist).imp ?_), ?_⟩
  · exact fun hne heq => hne (Definition.enum.inj heq).1
  · exact fun hne heq => hne (Definition.struct.inj heq).1
  · intro a ha b hb
    obtain ⟨_, _, rfl⟩ := List.mem_map.1 ha
    obtain ⟨_, _, rfl⟩ := List.mem_map.1 hb
    exact Definition.noConfusion

end Schema

namespace Loaded

variable {doc : SchemaDoc} {names : NameTable} {declared : List StructDef} {s : Schema} {a b : Definition}

/-- Definitions and namespaces are named by identifiers. -/
theorem definition_named (h : Loaded doc names declared s) (ha : a ∈ s.definitions) :
    isIdentifier a.name = true ∧ a.scope.Named :=
  Schema.nameAt?_isIdentifier h.valid (Schema.nameAt?_ref ha)

/-- A definition is told by its namespace and its name. -/
theorem definition_eq (h : Loaded doc names declared s) (ha : a ∈ s.definitions) (hb : b ∈ s.definitions)
    (hscope : a.scope = b.scope) (hname : a.name = b.name) : a = b := by
  have href : a.ref = b.ref := by
    refine h.nameAt?_inj (Schema.nameAt?_ref ha) ?_
    rw [hscope, hname]
    exact Schema.nameAt?_ref hb
  rcases Schema.mem_definitions ha with ⟨i, e, rfl, he⟩ | ⟨i, e, rfl, he⟩
  · rcases Schema.mem_definitions hb with ⟨j, e', rfl, he'⟩ | ⟨j, e', rfl, he'⟩
    · cases href
      cases he.symm.trans he'
      rfl
    · cases href
  · rcases Schema.mem_definitions hb with ⟨j, e', rfl, he'⟩ | ⟨j, e', rfl, he'⟩
    · cases href
    · cases href
      cases he.symm.trans he'
      rfl

end Loaded

/-! ## The files of a run -/

namespace Target

variable {t : Target} {env : Env}

/-- A file is written to the path of its group. -/
theorem renderFile_path {g : FileGroup} {file : OutputFile} (h : t.renderFile env g = .ok file) : file.path = g.path := by
  obtain ⟨b, _, h⟩ := bind_eq_ok.1 h
  obtain ⟨header, _, h⟩ := bind_eq_ok.1 h
  obtain ⟨footer, _, h⟩ := bind_eq_ok.1 h
  cases h
  rfl

/-- The files of a run are those of the groups and their companions. -/
theorem render_eq_ok {s : Schema} {options : Options} {files : List OutputFile} (h : t.render s options = .ok files) :
    ∃ rendered, files = rendered ++ t.companions (t.env s options) rendered ∧
      rendered.map (·.path) = (t.groups (t.env s options)).map (·.path) := by
  unfold render at h
  split at h
  next => cases h
  next =>
    obtain ⟨rendered, hrendered, h⟩ := bind_eq_ok.1 h
    cases h
    exact ⟨rendered, rfl, mapM_map (fun _ _ => renderFile_path) hrendered⟩

end Target

/-- The places that the files of a run are written to. -/
def OutputFile.places (files : List OutputFile) : List (List Path.Part) := files.map fun f => Path.parts f.path

theorem OutputFile.places_eq (files : List OutputFile) : places files = (files.map (·.path)).map Path.parts := by
  rw [places, List.map_map]
  rfl

/-! ## One file for each definition -/

theorem Case.keep_apply (name : String) : Case.keep.apply name = name := String.ofList_toList

/-- Directories and files bear the names of namespaces and definitions. -/
structure Namer.Plain (n : Namer) : Prop where
  directories : n.directories = .keep
  files : n.files = .keep
  fileSuffix : n.fileSuffix = ""

namespace Namer.Plain

variable {n : Namer}

/-- The directory of a namespace is the path of its components. -/
theorem directory_eq (h : n.Plain) (scope : Namespace) : n.directory scope = Path.ofComponents scope.components := by
  have hkeep : Case.keep.apply = id := funext Case.keep_apply
  rw [Namer.directory, h.directories, hkeep, List.map_id]

theorem file_eq (h : n.Plain) (name : String) : n.file name = name ++ n.fileExtension := by
  rw [Namer.file, h.files, h.fileSuffix, Case.keep_apply, String.append_empty]

end Namer.Plain

/-- Files in directories, told by the directory and the name. -/
theorem parts_file_inj {a b ext : String} (ha : isIdentifier a = true) (hb : isIdentifier b = true) {dir dir' : List Path.Part}
    (h : dir ++ Path.parts (a ++ ext) = dir' ++ Path.parts (b ++ ext)) : dir = dir' ∧ a = b := by
  rw [(Path.stem_of_isIdentifier ha).parts_append, (Path.stem_of_isIdentifier hb).parts_append] at h
  obtain ⟨hdir, hfile⟩ := List.append_inj' h rfl
  refine ⟨hdir, ?_⟩
  have hname := Path.Part.normal.inj (List.cons.inj hfile).1
  exact (String.append_left_inj _).1 hname

theorem normal_inj {a b : List String} (h : a.map Path.Part.normal = b.map .normal) : a = b :=
  (List.map_inj_right fun _ _ => Path.Part.normal.inj).1 h

/-- The place of the file of a definition, below the directories of its namespace. -/
def Definition.place (ext : String) (d : Definition) : List Path.Part :=
  d.scope.components.map .normal ++ Path.parts (d.name ++ ext)

section PerDefinition

variable {doc : SchemaDoc} {names : NameTable} {declared : List StructDef} {s : Schema} {n : Namer} {d : Definition}

/-- The path of a definition leads to its place. -/
theorem Loaded.parts_definitionPath (h : Loaded doc names declared s) (hn : n.Plain) (hd : d ∈ s.definitions) :
    Path.parts (Path.join (n.directory d.scope) (n.file d.name)) = d.place n.fileExtension := by
  obtain ⟨hname, hscope⟩ := h.definition_named hd
  rw [hn.directory_eq, hn.file_eq, Path.parts_join _ ((Path.stem_of_isIdentifier hname).bare_append _),
    Path.parts_ofComponents hscope]
  rfl

/-- Definitions go to different places. -/
theorem Loaded.place_inj (h : Loaded doc names declared s) (ext : String) :
    ∀ a ∈ s.definitions, ∀ b ∈ s.definitions, a.place ext = b.place ext → a = b := by
  intro a ha b hb hplace
  obtain ⟨hscope, hname⟩ := parts_file_inj (h.definition_named ha).1 (h.definition_named hb).1 hplace
  exact h.definition_eq ha hb (congrArg Namespace.mk (normal_inj hscope)) hname

end PerDefinition

/-! ## When two files get one path -/

/-- A definition is written to the place of the marker of a package. -/
def Definition.IsMarker (ext : String) (d : Definition) : Prop :=
  2 ≤ (d.place ext).length ∧ (d.place ext).getLast? = some (.normal "__init__.py")

instance (ext : String) (d : Definition) : Decidable (d.IsMarker ext) := inferInstanceAs (Decidable (_ ∧ _))

/-- Two definitions of one name meet in a package: all packages are one, or the package of the root bears the name of the schema and
this is the path of another package. -/
def Definition.MeetInPackage (o : Options) (s : Schema) (a b : Definition) : Prop :=
  a.scope ≠ b.scope ∧ a.name = b.name ∧
    ((Go.chosenPackage? o).isSome = true ∨ (a.scope.isRoot = true ∧ Path.parts s.fileName = b.scope.components.map .normal))

instance (o : Options) (s : Schema) (a b : Definition) : Decidable (a.MeetInPackage o s b) :=
  inferInstanceAs (Decidable (_ ∧ _))

/-- The file of the root bears the name of the schema, and this is the name of the file of a namespace. -/
def Definition.MeetInNamespace (ext : String) (s : Schema) (a b : Definition) : Prop :=
  a.scope.isRoot = true ∧ b.scope.isRoot = false ∧ Path.parts (s.fileName ++ ext) = Path.parts (b.scope.dotted ++ ext)

instance (ext : String) (s : Schema) (a b : Definition) : Decidable (a.MeetInNamespace ext s b) :=
  inferInstanceAs (Decidable (_ ∧ _))

/-- Two files of a run get one path. -/
def Language.Clashes (o : Options) (s : Schema) : Language → Prop
  | .python => o.oneFile = false ∧ ∃ d ∈ s.definitions, d.IsMarker (o.extensionOr ".py")
  | .go => o.oneFile = false ∧ ∃ a ∈ s.definitions, ∃ b ∈ s.definitions, a.MeetInPackage o s b
  | .csharp => o.oneFile = false ∧ ∃ a ∈ s.definitions, ∃ b ∈ s.definitions, a.MeetInNamespace (o.extensionOr ".cs") s b
  | .lua | .jsonSchema | .fbs => False

instance (o : Options) (s : Schema) : (l : Language) → Decidable (l.Clashes o s)
  | .python => inferInstanceAs (Decidable (_ ∧ _))
  | .go => inferInstanceAs (Decidable (_ ∧ _))
  | .csharp => inferInstanceAs (Decidable (_ ∧ _))
  | .lua | .jsonSchema | .fbs => inferInstanceAs (Decidable False)

namespace Target

/-- A single file is alone at its place. -/
theorem places_oneFile {t : Target} {s : Schema} {options : Options} {files : List OutputFile} (hlayout : t.layout = .oneFile)
    (hcompanions : ∀ rendered, t.companions (t.env s options) rendered = []) (h : t.render s options = .ok files) :
    (OutputFile.places files).Nodup := by
  obtain ⟨rendered, rfl, hpaths⟩ := render_eq_ok h
  rw [hcompanions, List.append_nil, OutputFile.places]
  unfold groups at hpaths
  rw [hlayout] at hpaths
  obtain ⟨file, rfl, _⟩ := List.map_eq_singleton_iff.1 hpaths
  exact List.nodup_singleton _

/-- With a file for each definition, the paths are those of the definitions. -/
theorem groups_perDefinition {t : Target} {env : Env} (hlayout : t.layout = .perDefinition) :
    (t.groups env).map (·.path) = env.schema.definitions.map (t.definitionPath env) := by
  unfold groups
  rw [hlayout]
  exact List.map_map

/-- Files of definitions that have no companions. -/
theorem places_nodup_perDefinition {t : Target} {s : Schema} {options : Options} {files : List OutputFile}
    (hlayout : t.layout = .perDefinition) (hcompanions : ∀ rendered, t.companions (t.env s options) rendered = [])
    (h : t.render s options = .ok files) :
    (OutputFile.places files).Nodup ↔ ∀ a ∈ s.definitions, ∀ b ∈ s.definitions,
      Path.parts (t.definitionPath (t.env s options) a) = Path.parts (t.definitionPath (t.env s options) b) → a = b := by
  obtain ⟨rendered, rfl, hgroups⟩ := render_eq_ok h
  rw [groups_perDefinition hlayout] at hgroups
  rw [hcompanions, List.append_nil, OutputFile.places_eq, hgroups, List.map_map]
  exact List.nodup_map_iff_inj_on s.definitions_nodup

end Target

/-! ## Packages with markers -/

namespace Python

variable {doc : SchemaDoc} {names : NameTable} {declared : List StructDef} {s : Schema} {o : Options}

theorem namer_plain (o : Options) : (namer o).Plain := ⟨rfl, rfl, rfl⟩

/-- The name of the marker of a package. -/
def marker : Path.Part := .normal "__init__.py"

/-- The marker of a package lies in the directory of the package. -/
theorem parts_marker (dir : String) : Path.parts (Path.join dir "__init__.py") = Path.parts dir ++ [marker] := by
  have hstem : Path.Stem "__init__.py" := ⟨⟨_, _, rfl, by decide⟩, by decide⟩
  rw [Path.parts_join dir hstem.bare]
  rfl

theorem packages_sorted (files : List OutputFile) : Path.Sorted (packages files) :=
  (Path.foldl_insertSorted [] _ List.Pairwise.nil).1

/-- No package is listed twice. -/
theorem packages_nodup (files : List OutputFile) : ((packages files).map Path.parts).Nodup :=
  List.pairwise_map.2 (packages_sorted files).places

/-- The packages are the directories around the files. -/
theorem packages_iff (files : List OutputFile) (place : List Path.Part) :
    (∃ dir ∈ packages files, Path.parts dir = place) ↔ ∃ f ∈ files, Path.Around place (Path.parts f.path) := by
  have hfold := Path.foldl_insertSorted place
    (files.flatMap fun f => Path.ancestors f.path.utf8ByteSize f.path) List.Pairwise.nil
  rw [packages, hfold.2]
  simp only [List.mem_flatMap, List.not_mem_nil, false_and, exists_false, false_or, ← Path.exists_ancestor_iff]
  constructor
  · rintro ⟨dir, ⟨f, hf, hdir⟩, hplace⟩
    exact ⟨f, hf, dir, hdir, hplace⟩
  · rintro ⟨f, hf, dir, hdir, hplace⟩
    exact ⟨dir, ⟨f, hf, hdir⟩, hplace⟩

/-- The files that come along are the markers of the packages. -/
theorem companions_places (ho : o.oneFile = false) (files : List OutputFile) :
    OutputFile.places (companions ((target o).env s o) files) = (packages files).map fun dir => Path.parts dir ++ [marker] := by
  have hoption : ((target o).env s o).options.oneFile = false := ho
  rw [companions, hoption, if_neg Bool.false_ne_true, OutputFile.places, List.map_map]
  exact List.map_congr_left fun dir _ => parts_marker dir

theorem definitionPath_eq (d : Definition) : (target o).definitionPath ((target o).env s o) d =
    Path.join ((namer o).directory d.scope) ((namer o).file d.name) := by
  dsimp only [target, Target.env]

/-- The path of a definition leads to its place. -/
theorem parts_definitionPath (h : Loaded doc names declared s) {d : Definition} (hd : d ∈ s.definitions) :
    Path.parts ((target o).definitionPath ((target o).env s o) d) = d.place (o.extensionOr ".py") := by
  rw [definitionPath_eq]
  exact h.parts_definitionPath (namer_plain o) hd

/-- Some marker stands at the place of a definition exactly when a definition is written to the place of a marker. -/
theorem marker_iff (h : Loaded doc names declared s) {rendered : List OutputFile}
    (hrendered : rendered.map (·.path) = s.definitions.map ((target o).definitionPath ((target o).env s o))) :
    (∃ d ∈ s.definitions, ∃ dir ∈ packages rendered, d.place (o.extensionOr ".py") = Path.parts dir ++ [marker]) ↔
      ∃ d ∈ s.definitions, d.IsMarker (o.extensionOr ".py") := by
  constructor
  · rintro ⟨d, hd, dir, hdir, hplace⟩
    refine ⟨d, hd, ?_⟩
    obtain ⟨f, hf, haround⟩ := (packages_iff rendered _).1 ⟨dir, hdir, rfl⟩
    have hlength := List.length_pos_iff.2 haround.1
    rw [Definition.IsMarker, hplace, List.length_append, List.length_singleton, List.getLast?_concat]
    exact ⟨by omega, rfl⟩
  · rintro ⟨d, hd, hlength, hlast⟩
    have hmem : (target o).definitionPath ((target o).env s o) d ∈ rendered.map (·.path) :=
      hrendered ▸ List.mem_map_of_mem hd
    obtain ⟨f, hf, hpath⟩ := List.mem_map.1 hmem
    have hparts : Path.parts f.path = d.place (o.extensionOr ".py") := hpath ▸ parts_definitionPath h hd
    obtain ⟨front, hfront⟩ := List.getLast?_eq_some_iff.1 hlast
    have hne : front ≠ [] := by
      rintro rfl
      rw [hfront] at hlength
      exact absurd hlength (by decide)
    -- the directory of the definition is a package, and its marker is where the definition is
    have haround : Path.Around front (Path.parts f.path) := by
      rw [hparts, hfront]
      exact Path.around_concat.2 ⟨hne, .inl rfl⟩
    obtain ⟨dir, hdir, hsame⟩ := (packages_iff rendered front).2 ⟨f, hf, haround⟩
    exact ⟨d, hd, dir, hdir, hsame ▸ hfront⟩

theorem layout_of_spread (ho : o.oneFile = false) : (target o).layout = .perDefinition := by
  have hlayout : (target o).layout = if o.oneFile then .oneFile else .perDefinition := rfl
  rw [hlayout, ho]
  rfl

/-- Two files meet exactly if a definition takes the name of a marker. -/
theorem places_nodup_iff (h : Loaded doc names declared s) (ho : o.oneFile = false) {files : List OutputFile}
    (hfiles : (target o).render s o = .ok files) :
    (OutputFile.places files).Nodup ↔ ¬∃ d ∈ s.definitions, d.IsMarker (o.extensionOr ".py") := by
  obtain ⟨rendered, rfl, hgroups⟩ := Target.render_eq_ok hfiles
  rw [Target.groups_perDefinition (layout_of_spread ho)] at hgroups
  have hplaces : OutputFile.places rendered = s.definitions.map (Definition.place (o.extensionOr ".py")) := by
    rw [OutputFile.places_eq, hgroups, List.map_map]
    exact List.map_congr_left fun d hd => parts_definitionPath h hd
  have hmarkers : ((packages rendered).map fun dir => Path.parts dir ++ [marker]).Nodup := by
    refine List.pairwise_map.2 ((List.pairwise_map.1 (packages_nodup rendered)).imp fun hne heq => ?_)
    exact hne (List.append_inj_left' heq rfl)
  have hdefinitions := (List.nodup_map_iff_inj_on s.definitions_nodup).2 (h.place_inj (o.extensionOr ".py"))
  have happend : OutputFile.places (rendered ++ (target o).companions ((target o).env s o) rendered) =
      s.definitions.map (Definition.place (o.extensionOr ".py")) ++
        (packages rendered).map fun dir => Path.parts dir ++ [marker] := by
    rw [← hplaces, ← companions_places (s := s) ho, OutputFile.places, List.map_append]
    rfl
  rw [happend, List.nodup_append, ← marker_iff h hgroups]
  simp only [hdefinitions, hmarkers, true_and, List.mem_map, ne_eq, forall_exists_index, and_imp,
    forall_apply_eq_imp_iff₂, not_exists, not_and]

end Python

/-! ## Packages that may be chosen -/

namespace Go

variable {doc : SchemaDoc} {names : NameTable} {declared : List StructDef} {s : Schema} {o : Options}

theorem namer_plain (o : Options) : (namer o).Plain := ⟨rfl, rfl, rfl⟩

/-- The directory of the package of a namespace. -/
def packagePath (o : Options) (s : Schema) (scope : Namespace) : String :=
  if (packageOf o scope).isRoot then s.fileName else (namer o).directory (packageOf o scope)

/-- With a package of the user's choice, all definitions go into it. -/
theorem packagePath_of_chosen (h : (chosenPackage? o).isSome = true) (scope scope' : Namespace) :
    packagePath o s scope = packagePath o s scope' := by
  obtain ⟨p, hp⟩ := Option.isSome_iff_exists.1 h
  rw [packagePath, packagePath, packageOf, packageOf, hp]
  rfl

/-- Without one, the package is the directory of the namespace, and for the root namespace the file name of the schema. -/
theorem parts_packagePath (h : (chosenPackage? o).isSome = false) {scope : Namespace} (hscope : scope.Named) :
    Path.parts (packagePath o s scope) =
      if scope.isRoot then Path.parts s.fileName else scope.components.map .normal := by
  have hpackage : packageOf o scope = scope := by
    rw [packageOf, Option.isSome_eq_false_iff.1 h |> Option.isNone_iff_eq_none.1]
    rfl
  rw [packagePath, hpackage, (namer_plain o).directory_eq]
  split
  next => rfl
  next => exact Path.parts_ofComponents hscope

/-- The path of a definition leads into its package. -/
theorem parts_definitionPath (h : Loaded doc names declared s) {d : Definition} (hd : d ∈ s.definitions) :
    Path.parts ((target o).definitionPath ((target o).env s o) d) =
      Path.parts (packagePath o s d.scope) ++ Path.parts (d.name ++ o.extensionOr ".go") := by
  have hpath : (target o).definitionPath ((target o).env s o) d =
      Path.join (packagePath o s d.scope) ((namer o).file d.name) := by
    dsimp only [target, Target.env, definitionPath, packagePath]
  rw [hpath, (namer_plain o).file_eq,
    Path.parts_join _ ((Path.stem_of_isIdentifier (h.definition_named hd).1).bare_append _)]
  rfl

/-- Definitions that meet have their packages in one directory. -/
theorem packagePath_of_meet (h : Loaded doc names declared s) {a b : Definition} (ha : a ∈ s.definitions)
    (hb : b ∈ s.definitions) (hmeet : a.MeetInPackage o s b) :
    Path.parts (packagePath o s a.scope) = Path.parts (packagePath o s b.scope) := by
  obtain ⟨hscope, _, hwhere⟩ := hmeet
  cases hchosen : (chosenPackage? o).isSome with
  | true => rw [packagePath_of_chosen hchosen]
  | false =>
    rw [hchosen] at hwhere
    obtain ⟨hroot, hfile⟩ := hwhere.resolve_left Bool.false_ne_true
    have hother : b.scope.isRoot = false := by
      rw [Bool.eq_false_iff]
      exact fun hroot' => hscope (Namespace.eq_of_isRoot hroot hroot')
    rw [parts_packagePath hchosen (h.definition_named ha).2, parts_packagePath hchosen (h.definition_named hb).2, if_pos hroot,
      hother, hfile]
    rfl

/-- Different definitions whose packages are in one directory and whose names agree meet. -/
theorem meet_of_packagePath (h : Loaded doc names declared s) {a b : Definition} (ha : a ∈ s.definitions)
    (hb : b ∈ s.definitions) (hpackage : Path.parts (packagePath o s a.scope) = Path.parts (packagePath o s b.scope))
    (hscope : a.scope ≠ b.scope) (hname : a.name = b.name) : a.MeetInPackage o s b ∨ b.MeetInPackage o s a := by
  cases hchosen : (chosenPackage? o).isSome with
  | true => exact .inl ⟨hscope, hname, .inl hchosen⟩
  | false =>
    rw [parts_packagePath hchosen (h.definition_named ha).2, parts_packagePath hchosen (h.definition_named hb).2] at hpackage
    cases hroot : a.scope.isRoot with
    | true =>
      cases hroot' : b.scope.isRoot with
      | true => exact absurd (Namespace.eq_of_isRoot hroot hroot') hscope
      | false =>
        rw [hroot, hroot'] at hpackage
        exact .inl ⟨hscope, hname, .inr ⟨hroot, hpackage⟩⟩
    | false =>
      cases hroot' : b.scope.isRoot with
      | true =>
        rw [hroot, hroot'] at hpackage
        exact .inr ⟨hscope.symm, hname.symm, .inr ⟨hroot', hpackage.symm⟩⟩
      | false =>
        rw [hroot, hroot'] at hpackage
        exact absurd (congrArg Namespace.mk (normal_inj hpackage)) hscope

/-- Two files meet exactly if two definitions of one name meet in a package. -/
theorem places_nodup_iff (h : Loaded doc names declared s) (ho : o.oneFile = false) {files : List OutputFile}
    (hfiles : (target o).render s o = .ok files) :
    (OutputFile.places files).Nodup ↔ ¬∃ a ∈ s.definitions, ∃ b ∈ s.definitions, a.MeetInPackage o s b := by
  have hlayout : (target o).layout = .perDefinition := by
    show (if o.oneFile then OutputLayout.oneFile else .perDefinition) = _
    rw [ho]
    rfl
  rw [Target.places_nodup_perDefinition hlayout (fun _ => rfl) hfiles]
  constructor
  · rintro hinj ⟨a, ha, b, hb, hmeet⟩
    have hpath : Path.parts ((target o).definitionPath ((target o).env s o) a) =
        Path.parts ((target o).definitionPath ((target o).env s o) b) := by
      rw [parts_definitionPath h ha, parts_definitionPath h hb, packagePath_of_meet h ha hb hmeet, hmeet.2.1]
    exact hmeet.1 (congrArg Definition.scope (hinj a ha b hb hpath))
  · intro hmeet a ha b hb hpath
    rw [parts_definitionPath h ha, parts_definitionPath h hb] at hpath
    obtain ⟨hpackage, hname⟩ := parts_file_inj (h.definition_named ha).1 (h.definition_named hb).1 hpath
    by_cases hscope : a.scope = b.scope
    · exact h.definition_eq ha hb hscope hname
    · rcases meet_of_packagePath h ha hb hpackage hscope hname with hab | hba
      · exact absurd ⟨a, ha, b, hb, hab⟩ hmeet
      · exact absurd ⟨b, hb, a, ha, hba⟩ hmeet

end Go

/-! ## One file for each namespace -/

namespace FileGroup

variable {path : Namespace → String} {ds : List Definition} {gs : List FileGroup} {d : Definition}

/-- Adding a definition adds its namespace if it is new. -/
theorem scopes_add (d : Definition) : ∀ gs : List FileGroup, (add path d gs).map (·.scope) =
    if d.scope ∈ gs.map (·.scope) then gs.map (·.scope) else gs.map (·.scope) ++ [d.scope]
  | [] => rfl
  | g :: rest => by
    rw [add]
    by_cases hg : g.scope = d.scope
    · simp [hg]
    · rw [if_neg hg, List.map_cons, scopes_add d rest, List.map_cons]
      by_cases hmem : d.scope ∈ rest.map (·.scope)
      · rw [if_pos hmem, if_pos (List.mem_cons_of_mem _ hmem)]
      · rw [if_neg hmem, if_neg (List.not_mem_cons_of_ne_of_not_mem (Ne.symm hg) hmem), List.cons_append]

/-- The path of a file is the one of its namespace. -/
theorem path_add : ∀ {gs : List FileGroup}, (∀ g ∈ gs, g.path = path g.scope) → ∀ g ∈ add path d gs, g.path = path g.scope
  | [], _, g, hg => by
    rw [List.mem_singleton.1 hg]
  | g' :: rest, h, g, hg => by
    rw [add] at hg
    split at hg
    next =>
      rcases List.mem_cons.1 hg with rfl | hg
      · exact h g' List.mem_cons_self
      · exact h g (List.mem_cons_of_mem _ hg)
    next =>
      rcases List.mem_cons.1 hg with rfl | hg
      · exact h g List.mem_cons_self
      · exact path_add (fun g hg => h g (List.mem_cons_of_mem _ hg)) g hg

/-- Some definitions are grouped by their namespaces. -/
structure Grouped (path : Namespace → String) (ds : List Definition) (gs : List FileGroup) : Prop where
  scopes : (gs.map (·.scope)).Nodup
  path : ∀ g ∈ gs, g.path = path g.scope
  covers : ∀ scope, scope ∈ gs.map (·.scope) ↔ ∃ d ∈ ds, d.scope = scope

/-- A definition is added to the file of its namespace. -/
theorem Grouped.add (h : Grouped path ds gs) (d : Definition) : Grouped path (ds ++ [d]) (add path d gs) := by
  refine ⟨?_, path_add h.path, fun scope => ?_⟩
  · rw [scopes_add]
    split
    next => exact h.scopes
    next hnew =>
      refine List.nodup_append.2 ⟨h.scopes, List.nodup_singleton _, fun a ha b hb heq => ?_⟩
      rw [List.mem_singleton.1 hb] at heq
      exact hnew (heq ▸ ha)
  · have hcovers : (∃ d' ∈ ds ++ [d], d'.scope = scope) ↔ (∃ d' ∈ ds, d'.scope = scope) ∨ d.scope = scope := by
      simp [or_and_right, exists_or]
    rw [scopes_add, hcovers, ← h.covers]
    split
    next hold =>
      constructor
      · exact .inl
      · rintro (hscope | rfl)
        · exact hscope
        · exact hold
    next => rw [List.mem_append, List.mem_singleton, eq_comm (a := scope)]

/-- Definitions are added one after the other. -/
theorem Grouped.foldl : ∀ (more : List Definition) {ds : List Definition} {gs : List FileGroup}, Grouped path ds gs →
    Grouped path (ds ++ more) (more.foldl (fun gs d => FileGroup.add path d gs) gs)
  | [], ds, gs, h => by
    rw [List.append_nil]
    exact h
  | d :: more, ds, gs, h => by
    have hrest := (h.add d).foldl more
    rwa [List.append_assoc, List.singleton_append] at hrest

end FileGroup

namespace CSharp

variable {doc : SchemaDoc} {names : NameTable} {declared : List StructDef} {s : Schema} {o : Options}

/-- The path of the file of a namespace. -/
theorem scopePath_eq (o : Options) (s : Schema) (scope : Namespace) :
    (target o).scopePath ((target o).env s o) scope =
      (if scope.isRoot then s.fileName else scope.dotted) ++ o.extensionOr ".cs" := rfl

/-- A namespace as it is written begins a file name. -/
theorem dotted_stem {scope : Namespace} (hscope : scope.Named) (hroot : scope.isRoot = false) : Path.Stem scope.dotted := by
  obtain ⟨c, rest, hcomponents⟩ := List.exists_cons_of_ne_nil (List.isEmpty_eq_false_iff.1 hroot)
  have htext : NameText scope.dotted.toList := Namespace.intercalate_nameText hscope
  obtain ⟨x, xs, hx, hword⟩ := isIdentifier_chars (hscope c (hcomponents ▸ List.mem_cons_self))
  have hdot : x ≠ '.' := by
    rintro rfl
    exact absurd (hword '.' (hx ▸ List.mem_cons_self)) (by decide)
  refine ⟨?_, htext.not_mem (by decide)⟩
  rw [Namespace.dotted, Namespace.join, hcomponents]
  cases rest with
  | nil => exact ⟨x, xs, by rw [String.intercalate_singleton, hx], hdot⟩
  | cons c' rest =>
    refine ⟨x, xs ++ ".".toList ++ (".".intercalate (c' :: rest)).toList, ?_, hdot⟩
    rw [String.intercalate_cons_cons, String.toList_append, String.toList_append, hx, List.cons_append, List.cons_append]

/-- Namespaces below the root are told apart by their dotted names. -/
theorem dotted_inj {a b : Namespace} (ha : a.Named) (hb : b.Named) (hra : a.isRoot = false) (hrb : b.isRoot = false)
    (h : a.dotted = b.dotted) : a = b := by
  have hsep : ∀ {n : Namespace}, n.Named → ∀ p ∈ n.components, '.' ∉ p.toList :=
    fun hn p hp => not_mem_of_isIdentifier (hn p hp) (by decide)
  exact congrArg Namespace.mk (Namespace.intercalate_inj (List.isEmpty_eq_false_iff.1 hra) (List.isEmpty_eq_false_iff.1 hrb)
    (hsep ha) (hsep hb) h)

/-- Two namespaces get one file exactly when one of them is the root and the schema bears the name of the other. -/
theorem scopePath_inj_iff (h : Loaded doc names declared s) :
    (∀ a ∈ s.definitions, ∀ b ∈ s.definitions, Path.parts ((target o).scopePath ((target o).env s o) a.scope) =
        Path.parts ((target o).scopePath ((target o).env s o) b.scope) → a.scope = b.scope) ↔
      ¬∃ a ∈ s.definitions, ∃ b ∈ s.definitions, a.MeetInNamespace (o.extensionOr ".cs") s b := by
  simp only [scopePath_eq]
  constructor
  · rintro hinj ⟨a, ha, b, hb, hroot, hroot', hmeet⟩
    have hscope := hinj a ha b hb (by rw [if_pos hroot, hroot']; exact hmeet)
    rw [hscope, hroot'] at hroot
    cases hroot
  · intro hmeet a ha b hb hpath
    -- the root has the file of the schema, which is that of a namespace if the names are alike
    cases hroot : a.scope.isRoot with
    | true =>
      cases hroot' : b.scope.isRoot with
      | true => exact Namespace.eq_of_isRoot hroot hroot'
      | false =>
        rw [hroot, hroot'] at hpath
        exact absurd ⟨a, ha, b, hb, hroot, hroot', hpath⟩ hmeet
    | false =>
      cases hroot' : b.scope.isRoot with
      | true =>
        rw [hroot, hroot'] at hpath
        exact absurd ⟨b, hb, a, ha, hroot', hroot, hpath.symm⟩ hmeet
      | false =>
        have hscope := (h.definition_named ha).2
        have hscope' := (h.definition_named hb).2
        rw [hroot, hroot', if_neg Bool.false_ne_true, if_neg Bool.false_ne_true, (dotted_stem hscope hroot).parts_append,
          (dotted_stem hscope' hroot').parts_append] at hpath
        have hname := Path.Part.normal.inj (List.cons.inj hpath).1
        exact dotted_inj hscope hscope' hroot hroot' ((String.append_left_inj _).1 hname)

/-- Two files meet exactly if two namespaces are written to one file. -/
theorem places_nodup_iff (h : Loaded doc names declared s) (ho : o.oneFile = false) {files : List OutputFile}
    (hfiles : (target o).render s o = .ok files) : (OutputFile.places files).Nodup ↔
      ¬∃ a ∈ s.definitions, ∃ b ∈ s.definitions, a.MeetInNamespace (o.extensionOr ".cs") s b := by
  have hlayout : (target o).layout = .perNamespace := by
    show (if o.oneFile then OutputLayout.oneFile else .perNamespace) = _
    rw [ho]
    rfl
  obtain ⟨rendered, rfl, hgroups⟩ := Target.render_eq_ok hfiles
  have hgrouped : FileGroup.Grouped ((target o).scopePath ((target o).env s o)) s.definitions
      ((target o).groups ((target o).env s o)) := by
    unfold Target.groups
    rw [hlayout]
    have hstart : FileGroup.Grouped ((target o).scopePath ((target o).env s o)) [] [] :=
      ⟨List.nodup_nil, fun g hg => absurd hg List.not_mem_nil, fun _ => by simp⟩
    exact hstart.foldl s.definitions
  have hpaths : rendered.map (·.path) = (((target o).groups ((target o).env s o)).map (·.scope)).map
      ((target o).scopePath ((target o).env s o)) := by
    rw [hgroups, List.map_map]
    exact List.map_congr_left hgrouped.path
  have hcompanions : (target o).companions ((target o).env s o) rendered = [] := rfl
  rw [hcompanions, List.append_nil, OutputFile.places_eq, hpaths, List.map_map, List.nodup_map_iff_inj_on hgrouped.scopes,
    ← scopePath_inj_iff h]
  simp only [hgrouped.covers, forall_exists_index, and_imp, forall_apply_eq_imp_iff₂, Function.comp_apply]

end CSharp

/-! ## All languages -/

namespace Lua

theorem namer_plain (o : Options) : (namer o).Plain := ⟨rfl, rfl, rfl⟩

/-- A file for each definition: no two files meet. -/
theorem places_nodup {doc : SchemaDoc} {names : NameTable} {declared : List StructDef} {s : Schema} {o : Options}
    (h : Loaded doc names declared s) {files : List OutputFile} (hfiles : (target o).render s o = .ok files) :
    (OutputFile.places files).Nodup := by
  refine (Target.places_nodup_perDefinition rfl (fun _ => rfl) hfiles).2 fun a ha b hb hpath => ?_
  have hplace : ∀ d ∈ s.definitions,
      Path.parts ((target o).definitionPath ((target o).env s o) d) = d.place (o.extensionOr ".lua") := by
    intro d hd
    dsimp only [target, Target.env]
    exact h.parts_definitionPath (namer_plain o) hd
  rw [hplace a ha, hplace b hb] at hpath
  exact h.place_inj _ a ha b hb hpath

end Lua

/-- The files of a run go to different places exactly when no two get one path. -/
theorem Language.places_nodup_iff {doc : SchemaDoc} {names : NameTable} {declared : List StructDef} {s : Schema}
    (h : Loaded doc names declared s) (language : Language) {o : Options} {files : List OutputFile}
    (hfiles : (language.target o).render s o = .ok files) :
    (OutputFile.places files).Nodup ↔ ¬language.Clashes o s := by
  cases ho : o.oneFile with
  | true =>
    have hno : ∀ {p : Prop}, ¬(o.oneFile = false ∧ p) := fun hc => Bool.noConfusion (ho.symm.trans hc.1)
    cases language with
    | python =>
      have hcompanions : ∀ rendered, (Python.target o).companions ((Python.target o).env s o) rendered = [] :=
        fun _ => if_pos ho
      exact iff_of_true (Target.places_oneFile (if_pos ho) hcompanions hfiles) hno
    | go => exact iff_of_true (Target.places_oneFile (if_pos ho) (fun _ => rfl) hfiles) hno
    | csharp => exact iff_of_true (Target.places_oneFile (if_pos ho) (fun _ => rfl) hfiles) hno
    | lua => exact iff_of_true (Lua.places_nodup h hfiles) not_false
    | jsonSchema => exact iff_of_true (Target.places_oneFile rfl (fun _ => rfl) hfiles) not_false
    | fbs => exact iff_of_true (Target.places_oneFile rfl (fun _ => rfl) hfiles) not_false
  | false =>
    cases language with
    | python => exact (Python.places_nodup_iff h ho hfiles).trans (not_congr (and_iff_right ho).symm)
    | go => exact (Go.places_nodup_iff h ho hfiles).trans (not_congr (and_iff_right ho).symm)
    | csharp => exact (CSharp.places_nodup_iff h ho hfiles).trans (not_congr (and_iff_right ho).symm)
    | lua => exact iff_of_true (Lua.places_nodup h hfiles) not_false
    | jsonSchema => exact iff_of_true (Target.places_oneFile rfl (fun _ => rfl) hfiles) not_false
    | fbs => exact iff_of_true (Target.places_oneFile rfl (fun _ => rfl) hfiles) not_false

/-- A schema that a document gives is rendered for every language and with all options. The files go to different places exactly when
no two of them get one path, and then all of them are found where they were written. -/
theorem Schema.ofDocument_filePaths {doc : SchemaDoc} {s : Schema} (h : Schema.ofDocument doc = .ok s) (language : Language)
    (options : Options) :
    ∃ files, (language.target options).render s options = .ok files ∧
      ((files.map fun f => Path.parts f.path).Nodup ↔ ¬language.Clashes options s) ∧
      (¬language.Clashes options s → ∀ file ∈ files,
        MemoryFiles.get? ((language.target options).generate s options MemoryFiles.sink [] "").1 file.path =
          some file.contents) := by
  obtain ⟨names, declared, h⟩ := Schema.ofDocument_loaded h
  obtain ⟨files, hfiles, _⟩ := (language.target_total options h.closed).renders h.valid
  have hiff := language.places_nodup_iff h hfiles
  refine ⟨files, hfiles, hiff, fun hclash file hmem => ?_⟩
  rw [Target.generate, hfiles]
  exact MemoryFiles.get?_writeAll [] (List.pairwise_map.1 (hiff.2 hclash)) hmem

/-- The sample is written to files at different places, in every language. -/
theorem sampleDoc_filePaths : ∃ s, Schema.ofDocument sampleDoc = .ok s ∧ ∀ language : Language,
    ∃ files, (language.target {}).render s {} = .ok files ∧ (files.map fun f => Path.parts f.path).Nodup := by
  obtain ⟨s, hs, hseen⟩ := Schema.exists_ofDocument sampleDoc
    (fun s => decide (∀ language ∈ [Language.python, .go, .csharp, .lua, .jsonSchema, .fbs], ¬language.Clashes {} s)) true
    (by decide +kernel)
  refine ⟨s, hs, fun language => ?_⟩
  obtain ⟨files, hfiles, hiff, _⟩ := Schema.ofDocument_filePaths hs language {}
  exact ⟨files, hfiles, hiff.2 (of_decide_eq_true hseen language (by cases language <;> decide))⟩

/-- A schema whose name is that of a namespace, with definitions that bear one name there and outside, and one that bears the name of
a marker. -/
def meetingDoc : SchemaDoc where
  fileName := "game"
  enums := [
    { name := "Item", underlying := some "ubyte", values := [{ name := "A" }] },
    { name := "Item", scope := "game", underlying := some "ubyte", values := [{ name := "B" }] },
    { name := "__init__", scope := "game", underlying := some "ubyte", values := [{ name := "C" }] }]

/-- Two files of the schema get one path in each of three languages. -/
theorem meetingDoc_clashes : ∃ s, Schema.ofDocument meetingDoc = .ok s ∧
    ((Python.target {}).render s {}).toOption.map (·.map (·.path)) =
      some ["Item.py", "game/Item.py", "game/__init__.py", "game/__init__.py"] ∧
    ((Go.target {}).render s {}).toOption.map (·.map (·.path)) = some ["game/Item.go", "game/Item.go", "game/__init__.go"] ∧
    ((CSharp.target {}).render s {}).toOption.map (·.map (·.path)) = some ["game.cs", "game.cs"] := by
  obtain ⟨s, hs, hseen⟩ := Schema.exists_ofDocument meetingDoc
    (fun s => decide (((Python.target {}).render s {}).toOption.map (·.map (·.path)) =
        some ["Item.py", "game/Item.py", "game/__init__.py", "game/__init__.py"] ∧
      ((Go.target {}).render s {}).toOption.map (·.map (·.path)) = some ["game/Item.go", "game/Item.go", "game/__init__.go"] ∧
      ((CSharp.target {}).render s {}).toOption.map (·.map (·.path)) = some ["game.cs", "game.cs"])) true
    (by decide +kernel)
  exact ⟨s, hs, of_decide_eq_true hseen⟩

end FlatSchema

import FlatSchema.Proofs.FilePaths
import FlatSchema.Proofs.NameChars
import FlatSchema.Proofs.ReservedWords

/-!
# Packages around modules

The markers that go with the files of a run are those of the directories around the files, one for each. A definition may be written
to the place of a marker, and then the package is there all the same (`Python.exists_marker_iff`).

A module is imported by the names of its packages, and these names are not those of the directories if they are reserved words: a
package `global` is imported as `global_`. The packages around a module are there exactly when some file of the run lies in
directories of the names by which the module is imported (`Python.inPackages_modulePath_iff`).
-/

namespace FlatSchema

namespace Python

variable {o : Options} {s : Schema} {scope : Namespace} {name symbol : String}

/-! ## Markers -/

/-- A file stands for the marker of a package exactly when the package is around a file of a definition. A definition may be written
to the place of a marker, but then its own file is in the package. -/
theorem exists_marker_iff (ho : o.oneFile = false) (rendered : List OutputFile) {place : List Path.Part} (hne : place ≠ []) :
    (∃ f ∈ rendered ++ companions ((target o).env s o) rendered, Path.parts f.path = place ++ [marker]) ↔
      ∃ f ∈ rendered, Path.Around place (Path.parts f.path) := by
  have hplaces := companions_places (s := s) ho rendered
  constructor
  · rintro ⟨f, hf, hplace⟩
    rcases List.mem_append.1 hf with hf | hf
    · exact ⟨f, hf, hplace ▸ Path.around_concat.2 ⟨hne, .inl rfl⟩⟩
    · have hmem : Path.parts f.path ∈ OutputFile.places (companions ((target o).env s o) rendered) := List.mem_map_of_mem hf
      rw [hplaces, hplace] at hmem
      obtain ⟨dir, hdir, heq⟩ := List.mem_map.1 hmem
      exact (packages_iff rendered place).1 ⟨dir, hdir, List.append_inj_left' heq rfl⟩
  · intro h
    obtain ⟨dir, hdir, hparts⟩ := (packages_iff rendered place).2 h
    have hmem : place ++ [marker] ∈ OutputFile.places (companions ((target o).env s o) rendered) := by
      rw [hplaces, ← hparts]
      exact List.mem_map_of_mem hdir
    obtain ⟨f, hf, hplace⟩ := List.mem_map.1 hmem
    exact ⟨f, List.mem_append_right _ hf, hplace⟩

/-! ## Names of modules -/

/-- The names between the dots of a module's name. -/
def moduleNames (module : String) : List String := (module.toList.splitOn '.').map String.ofList

/-- All packages around a module have their markers among some files. -/
def InPackages (files : List OutputFile) (module : String) : Prop :=
  ∀ package, package ≠ [] → package <+: (moduleNames module).dropLast →
    ∃ f ∈ files, Path.parts f.path = package.map .normal ++ [marker]

/-- A name has no dots in any form. -/
theorem dotless_format (k : Case) (h : isIdentifier name = true) : '.' ∉ ((namer o).format k name).toList := by
  have hchars : ∀ c ∈ ((namer o).format k name).toList, c ≠ '.' := by
    refine CharKind.mem_format (.ne rfl (by decide)) ?_ ?_ k fun c hc heq => not_mem_of_isIdentifier h rfl (heq ▸ hc)
    · simp [namer]
    · simp [namer]
  exact fun hmem => hchars '.' hmem rfl

/-- A name that is not reserved stays as it is. -/
theorem component_of_not_keyword (h : name ∉ keywords) : (namer o).component name = name := by
  have hformat : (namer o).component name = Case.keep.apply ((namer o).escape name) := rfl
  rw [hformat, Case.keep_apply, Namer.escape_of_not_mem h]

theorem modulePath_eq : modulePath ((target o).env s o) scope name =
    ".".intercalate (scope.components.map (namer o).component ++ [(namer o).typeName name]) := rfl

/-- The packages of a module bear the names of the components of its namespace, changed if they are reserved. -/
theorem moduleNames_modulePath (hscope : scope.Named) (hname : isIdentifier name = true) :
    (moduleNames (modulePath ((target o).env s o) scope name)).dropLast = scope.components.map (namer o).component := by
  have hchars : (modulePath ((target o).env s o) scope name).toList =
      ['.'].intercalate ((scope.components.map (namer o).component ++ [(namer o).typeName name]).map String.toList) := by
    rw [modulePath_eq, String.toList_intercalate]
    rfl
  have hdotless : ∀ l ∈ (scope.components.map (namer o).component ++ [(namer o).typeName name]).map String.toList, '.' ∉ l := by
    intro l hl
    obtain ⟨n, hn, rfl⟩ := List.mem_map.1 hl
    rcases List.mem_append.1 hn with hn | hn
    · obtain ⟨c, hc, rfl⟩ := List.mem_map.1 hn
      exact dotless_format _ (hscope c hc)
    · rw [List.mem_singleton.1 hn]
      exact dotless_format _ hname
  have hofList : String.ofList ∘ String.toList = id := funext fun _ => String.ofList_toList
  rw [moduleNames, hchars, List.splitOn_intercalate '.' hdotless (by simp), List.map_map, hofList, List.map_id,
    List.dropLast_concat]

/-- The packages around a module are there if the innermost of them is. -/
theorem inPackages_iff {files rendered : List OutputFile} {module : String}
    (hmarkers : ∀ place, place ≠ [] →
      ((∃ f ∈ files, Path.parts f.path = place ++ [marker]) ↔ ∃ f ∈ rendered, Path.Around place (Path.parts f.path))) :
    InPackages files module ↔ (moduleNames module).dropLast = [] ∨
      ∃ f ∈ rendered, Path.Around ((moduleNames module).dropLast.map .normal) (Path.parts f.path) := by
  have hnil : ∀ {names : List String}, names ≠ [] → names.map Path.Part.normal ≠ [] := fun h hmap => h (List.map_eq_nil_iff.1 hmap)
  constructor
  · intro h
    refine or_iff_not_imp_left.2 fun hne => ?_
    exact (hmarkers _ (hnil hne)).1 (h _ hne List.prefix_rfl)
  · rintro (hroot | ⟨f, hf, haround⟩) package hne hbegin
    · exact absurd (List.prefix_nil.1 (hroot ▸ hbegin)) hne
    · refine (hmarkers _ (hnil hne)).2 ⟨f, hf, hnil hne, (hbegin.map _).trans haround.2.1, fun heq => ?_⟩
      have hlength := (hbegin.map Path.Part.normal).length_le
      exact haround.2.2 (haround.2.1.eq_of_length_le (heq ▸ hlength))

/-! ## Imports -/

/-- Code imports a symbol of the module of a definition of the schema. -/
def Imports (env : Env) (code : Code) (symbol : String) : Prop :=
  ∃ ref scope name, env.schema.nameAt? ref = some (scope, name) ∧ code = importSymbol env scope name symbol

variable {env : Env} {t : TypeDesc} {code : Code}

/-- Importing the symbol of a struct names a module of the schema. -/
theorem imports_struct {d : StructDef} (h : env.schema.structOf? t = some d) (symbol : String) :
    Imports env (importSymbol env d.scope d.name symbol) symbol := by
  obtain ⟨i, _, hd⟩ := Schema.structOf?_eq_some.1 h
  exact ⟨.struct i, d.scope, d.name, Option.map_eq_some_iff.2 ⟨d, hd, rfl⟩, rfl⟩

/-- Importing the symbol of an enum names a module of the schema. -/
theorem imports_enum {e : EnumDef} (h : env.enumOf t = .ok e) (symbol : String) :
    Imports env (importSymbol env e.scope e.name symbol) symbol := by
  obtain ⟨i, _, he⟩ := Option.bind_eq_some_iff.1 (Env.enumOf_eq_ok.1 h)
  exact ⟨.enum i, e.scope, e.name, Option.map_eq_some_iff.2 ⟨e, he, rfl⟩, rfl⟩

/-- Importing what a type refers to names a module of the schema. -/
theorem importType_imports (h : importType env t = .ok (code, symbol)) : Imports env code symbol := by
  unfold importType at h
  split at h
  next d hd =>
    cases h
    exact imports_struct hd _
  next =>
    obtain ⟨e, he, h⟩ := bind_eq_ok.1 h
    cases h
    exact imports_enum he _

/-- Importing the object of a type names a module of the schema. -/
theorem importObject_imports (h : importObject env t = .ok (code, symbol)) : Imports env code symbol := by
  obtain ⟨d, hd, h⟩ := bind_eq_ok.1 h
  cases h
  exact imports_struct (Env.structOf_eq_ok.1 hd) _

/-! ## Runs -/

/-- The packages around the module of a definition are there exactly when some definition is written into directories of the names by
which the packages are imported. -/
theorem inPackages_modulePath_iff {doc : SchemaDoc} {names : NameTable} {declared : List StructDef} (h : Loaded doc names declared s)
    (ho : o.oneFile = false) {files : List OutputFile} (hfiles : (target o).render s o = .ok files) {ref : Ref}
    (href : s.nameAt? ref = some (scope, name)) :
    InPackages files (modulePath ((target o).env s o) scope name) ↔ scope.components = [] ∨
      ∃ d ∈ s.definitions, Path.Around ((scope.components.map (namer o).component).map .normal)
        (Path.parts ((target o).definitionPath ((target o).env s o) d)) := by
  obtain ⟨hname, hscope⟩ := Schema.nameAt?_isIdentifier h.valid href
  obtain ⟨rendered, rfl, hgroups⟩ := Target.render_eq_ok hfiles
  rw [Target.groups_perDefinition (layout_of_spread ho)] at hgroups
  replace hgroups : rendered.map (·.path) = s.definitions.map ((target o).definitionPath ((target o).env s o)) := hgroups
  have hpaths : ∀ place, (∃ f ∈ rendered, Path.Around place (Path.parts f.path)) ↔
      ∃ d ∈ s.definitions, Path.Around place (Path.parts ((target o).definitionPath ((target o).env s o) d)) := by
    intro place
    have hmem := congrArg (fun paths : List String => ∃ path ∈ paths, Path.Around place (Path.parts path)) hgroups
    simpa only [List.mem_map, exists_exists_and_eq_and] using Iff.of_eq hmem
  refine (inPackages_iff fun place hne => exists_marker_iff ho rendered hne).trans ?_
  rw [moduleNames_modulePath hscope hname, hpaths, List.map_eq_nil_iff]

/-- The directories of a namespace in which a definition is written. -/
theorem around_definitionPath {doc : SchemaDoc} {names : NameTable} {declared : List StructDef} (h : Loaded doc names declared s)
    {d : Definition} (hd : d ∈ s.definitions) (hne : d.scope.components ≠ []) :
    Path.Around (d.scope.components.map .normal) (Path.parts ((target o).definitionPath ((target o).env s o) d)) := by
  rw [parts_definitionPath h hd, Definition.place, (Path.stem_of_isIdentifier (h.definition_named hd).1).parts_append]
  refine ⟨fun hmap => hne (List.map_eq_nil_iff.1 hmap), List.prefix_append _ _, fun heq => ?_⟩
  have hlength := congrArg List.length heq
  rw [List.length_append, List.length_cons] at hlength
  omega

end Python

/-- The markers that go with the files of a run. In one file there are none. Otherwise there is a marker, which is empty, for each place
around a file, in ascending order and no place twice, and there is none besides.

Code imports nothing but the modules of definitions of the schema. If a document gives the schema, the packages around such a module
are there exactly when some definition is written into directories of the names by which they are imported. So they are there if the
namespace has a definition that is written and none of its components is a reserved word. -/
theorem Python.companions_packages (o : Options) (s : Schema) :
    (o.oneFile = true → ∀ files, companions ((target o).env s o) files = []) ∧
    (o.oneFile = false → ∀ files, ∃ dirs,
      companions ((target o).env s o) files = dirs.map (fun dir => { path := Path.join dir "__init__.py", contents := "" }) ∧
      Path.Sorted dirs ∧ (dirs.map Path.parts).Nodup ∧
      ∀ place, (∃ dir ∈ dirs, Path.parts dir = place) ↔ ∃ f ∈ files, Path.Around place (Path.parts f.path)) ∧
    (∀ t code symbol, importType ((target o).env s o) t = .ok (code, symbol) → Imports ((target o).env s o) code symbol) ∧
    (∀ t code symbol, importObject ((target o).env s o) t = .ok (code, symbol) → Imports ((target o).env s o) code symbol) ∧
    (∀ t e, ((target o).env s o).enumOf t = .ok e →
      Imports ((target o).env s o) (importCreator ((target o).env s o) e).1 (importCreator ((target o).env s o) e).2) ∧
    ∀ doc, Schema.ofDocument doc = .ok s → o.oneFile = false → ∃ files, (target o).render s o = .ok files ∧
      ∀ ref scope name, s.nameAt? ref = some (scope, name) →
        (InPackages files (modulePath ((target o).env s o) scope name) ↔ scope.components = [] ∨
          ∃ d ∈ s.definitions, Path.Around ((scope.components.map (namer o).component).map .normal)
            (Path.parts ((target o).definitionPath ((target o).env s o) d))) ∧
        ((∃ d ∈ s.definitions, d.scope = scope) → (∀ c ∈ scope.components, c ∉ keywords) →
          InPackages files (modulePath ((target o).env s o) scope name)) := by
  refine ⟨fun ho files => ?_, fun ho files => ⟨packages files, ?_, packages_sorted files, packages_nodup files, packages_iff files⟩,
    fun t code symbol => importType_imports, fun t code symbol => importObject_imports, fun t e he => imports_enum he _,
    fun doc hdoc ho => ?_⟩
  · have hoption : ((target o).env s o).options.oneFile = true := ho
    rw [companions, if_pos hoption]
  · have hoption : ((target o).env s o).options.oneFile = false := ho
    rw [companions, hoption, if_neg Bool.false_ne_true]
  · obtain ⟨names, declared, hloaded⟩ := Schema.ofDocument_loaded hdoc
    obtain ⟨files, hfiles, _⟩ := (Language.python.target_total o hloaded.closed).renders hloaded.valid
    refine ⟨files, hfiles, fun ref scope name href => ?_⟩
    have hiff := inPackages_modulePath_iff hloaded ho hfiles href
    refine ⟨hiff, ?_⟩
    rintro ⟨d, hd, rfl⟩ hplain
    refine hiff.2 (or_iff_not_imp_left.2 fun hne => ⟨d, hd, ?_⟩)
    have hsame : d.scope.components.map (namer o).component = d.scope.components :=
      (List.map_congr_left fun c hc => component_of_not_keyword (hplain c hc)).trans (List.map_id' _)
    rw [hsame]
    exact around_definitionPath hloaded hd hne

/-- A schema with two packages inside a third. -/
def siblingsDoc : SchemaDoc where
  structs := [{ name := "P", scope := "a.b" }, { name := "Q", scope := "a.c" }, { name := "T", fields := [{ name := "p", type := "a.b.P" }] }]

/-- Two packages in one: each directory on the way has its marker. -/
theorem siblingsDoc_packages : ∃ s files, Schema.ofDocument siblingsDoc = .ok s ∧ (Python.target {}).render s {} = .ok files ∧
    files.map (·.path) = ["a/b/P.py", "a/c/Q.py", "T.py", "a/__init__.py", "a/b/__init__.py", "a/c/__init__.py"] ∧
    Python.modulePath ((Python.target {}).env s {}) ⟨["a", "b"]⟩ "P" = "a.b.P" ∧ Python.InPackages files "a.b.P" ∧
    Python.companions ((Python.target { oneFile := true }).env s { oneFile := true }) files = [] := by
  obtain ⟨s, hs, hseen⟩ := Schema.exists_ofDocument siblingsDoc
    (fun s => (((Python.target {}).render s {}).toOption.map (·.map (·.path)), s.nameAt? (.struct 0), s.definitions.map (·.scope)))
    (some ["a/b/P.py", "a/c/Q.py", "T.py", "a/__init__.py", "a/b/__init__.py", "a/c/__init__.py"], some (⟨["a", "b"]⟩, "P"),
      [⟨["a", "b"]⟩, ⟨["a", "c"]⟩, ⟨[]⟩]) (by decide +kernel)
  simp only [Prod.mk.injEq] at hseen
  obtain ⟨hpaths, href, hscopes⟩ := hseen
  obtain ⟨files, hfiles, hmodules⟩ := (Python.companions_packages {} s).2.2.2.2.2 siblingsDoc hs rfl
  rw [hfiles] at hpaths
  have hmem : ⟨["a", "b"]⟩ ∈ s.definitions.map (·.scope) := by
    rw [hscopes]
    exact List.mem_cons_self
  obtain ⟨d, hd, hscope⟩ := List.mem_map.1 hmem
  have hmodule : Python.modulePath ((Python.target {}).env s {}) ⟨["a", "b"]⟩ "P" = "a.b.P" := by
    rw [Python.modulePath_eq]
    decide
  refine ⟨s, files, hs, hfiles, Option.some.inj hpaths, hmodule, hmodule ▸ ?_,
    (Python.companions_packages { oneFile := true } s).1 rfl files⟩
  exact (hmodules (.struct 0) ⟨["a", "b"]⟩ "P" href).2 ⟨d, hd, hscope⟩ (by decide)

/-- Whether a step writes a line of a given text. -/
def Step.writes (text : String) : Step → Bool
  | .line p => p.text == text
  | _ => false

/-- A schema with a package whose name is a reserved word. -/
def reservedDoc : SchemaDoc where
  structs := [{ name := "P", scope := "global" }, { name := "T", fields := [{ name := "p", type := "global.P" }] }]

/-- The code of the table outside imports the other one from a package that is not there: the directory has the name as it is. -/
theorem reservedDoc_unpackaged : ∃ s files, Schema.ofDocument reservedDoc = .ok s ∧ (Python.target {}).render s {} = .ok files ∧
    files.map (·.path) = ["global/P.py", "T.py", "global/__init__.py"] ∧
    Python.modulePath ((Python.target {}).env s {}) ⟨["global"]⟩ "P" = "global_.P" ∧
    (∃ t ∈ s.definitions, t.name = "T" ∧ ∃ code, (Python.target {}).define ((Python.target {}).env s {}) (.start {}) t = .ok code ∧
      code.any (Step.writes "from global_.P import P") = true) ∧
    ¬Python.InPackages files "global_.P" := by
  obtain ⟨s, hs, hseen⟩ := Schema.exists_ofDocument reservedDoc
    (fun s => (((Python.target {}).render s {}).toOption.map (·.map (·.path)),
      s.definitions.map fun t => (t.name, ((Python.target {}).define ((Python.target {}).env s {}) (.start {}) t).toOption.map
        (·.any (Step.writes "from global_.P import P")))))
    (some ["global/P.py", "T.py", "global/__init__.py"], [("P", some false), ("T", some true)]) (by decide +kernel)
  obtain ⟨hpaths, hcodes⟩ := Prod.mk.inj hseen
  obtain ⟨files, hfiles, hpaths⟩ := Option.map_eq_some_iff.1 hpaths
  have htable : ("T", some true) ∈ s.definitions.map fun t => (t.name, ((Python.target {}).define ((Python.target {}).env s {}) (.start {})
      t).toOption.map (·.any (Step.writes "from global_.P import P"))) := by
    rw [hcodes]
    exact List.mem_cons_of_mem _ List.mem_cons_self
  obtain ⟨t, ht, heq⟩ := List.mem_map.1 htable
  obtain ⟨hname, hcode⟩ := Prod.mk.inj heq
  obtain ⟨code, hcode, hwrites⟩ := Option.map_eq_some_iff.1 hcode
  refine ⟨s, files, hs, eq_ok_of_toOption hfiles, hpaths, ?_, ⟨t, ht, hname, code, eq_ok_of_toOption hcode, hwrites⟩, ?_⟩
  · rw [Python.modulePath_eq]
    decide
  · intro h
    obtain ⟨f, hf, hplace⟩ := h ["global_"] (List.cons_ne_nil _ _) (by decide)
    have hmem : f.path ∈ files.map (·.path) := List.mem_map_of_mem hf
    rw [hpaths] at hmem
    simp only [List.mem_cons, List.not_mem_nil, or_false] at hmem
    rcases hmem with hpath | hpath | hpath <;> rw [hpath] at hplace <;> revert hplace <;> decide

end FlatSchema

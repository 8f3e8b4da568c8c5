import FlatSchema.Proofs.Emission

/-!
# Files stay below the output directory

The names of definitions and namespaces are identifiers and lead nowhere else. The name of the schema, the suffix and the extension of
files and the chosen package are taken as they are: a file leaves the output directory exactly when one of these, where a path uses it,
starts at the root or goes up (`Language.Confines`).
-/

namespace FlatSchema

namespace Path

/-! ## Paths that go down only -/

/-- A path that leads down from wherever it starts: it is relative, it is not empty, and no part of it goes up. -/
structure Confined (path : String) : Prop where
  relative : isAbsolute path = false
  nonempty : path ≠ ""
  down : Part.parent ∉ parts path

/-- A path leads to something below another. -/
def Below (base path : String) : Prop := ∃ rest, parts path = parts base ++ rest ∧ Part.root ∉ rest ∧ Part.parent ∉ rest

/-- A text that as a path would neither start at the root nor go up. -/
def Stays (s : String) : Prop := isAbsolute s = false ∧ ['.', '.'] ∉ s.toList.splitOn '/'

instance (s : String) : Decidable (Stays s) := inferInstanceAs (Decidable (_ ∧ _))

/-- A path is absolute if it starts with the separator. -/
theorem isAbsolute_eq_false {s : String} : isAbsolute s = false ↔ ∀ rest, s.toList ≠ '/' :: rest := by
  unfold isAbsolute
  cases s.toList <;> simp

/-- A path goes up where a piece is two dots. -/
theorem parent_mem_pieceParts {pieces : List (List Char)} : Part.parent ∈ pieceParts pieces ↔ ['.', '.'] ∈ pieces := by
  simp only [pieceParts, List.mem_map, List.mem_filter]
  constructor
  · rintro ⟨p, ⟨hp, _⟩, hpart⟩
    by_cases hup : p = ['.', '.']
    · exact hup ▸ hp
    · rw [if_neg hup] at hpart
      cases hpart
  · intro hup
    exact ⟨_, ⟨hup, rfl⟩, rfl⟩

/-- The root stands at the start of a path only. -/
theorem root_not_mem_pieceParts {pieces : List (List Char)} : Part.root ∉ pieceParts pieces := by
  rw [pieceParts, List.mem_map]
  rintro ⟨p, _, hpart⟩
  split at hpart <;> cases hpart

/-- The parts of a relative path that go up are its pieces that do. -/
theorem parent_mem_parts {path : String} (h : isAbsolute path = false) :
    Part.parent ∈ parts path ↔ ['.', '.'] ∈ path.toList.splitOn '/' := by
  rcases start_cases path.toList with ⟨rest, hs⟩ | hs | ⟨rest, hs⟩ | hbare
  · exact absurd hs (isAbsolute_eq_false.1 h rest)
  · obtain rfl : path = "." := String.toList_inj.1 hs
    decide
  · have hpieces : path.toList.splitOn '/' = ['.'] :: rest.splitOn '/' := by
      rw [hs]
      exact List.splitOn_append_cons_self ['.'] rest
    rw [parts_eq, headAndPieces_of_below hs, hpieces]
    simp [parent_mem_pieceParts]
  · rw [parts_of_bare hbare, parent_mem_pieceParts]

/-- Only a path with a slash in front starts at the root. -/
theorem isAbsolute_eq_false_iff {path : String} : isAbsolute path = false ↔ Part.root ∉ parts path := by
  rw [isAbsolute_eq_false]
  rcases start_cases path.toList with ⟨rest, hs⟩ | hs | ⟨rest, hs⟩ | hbare
  · rw [parts_eq, headAndPieces_of_root hs, hs]
    simp
  · obtain rfl : path = "." := String.toList_inj.1 hs
    exact iff_of_true (by simp) (by decide)
  · rw [parts_eq, headAndPieces_of_below hs, hs]
    simp [root_not_mem_pieceParts]
  · rw [parts_of_bare hbare]
    exact iff_of_true hbare.root root_not_mem_pieceParts

/-- A path is confined if it is not empty and stays where it is joined to. -/
theorem confined_iff {path : String} : Confined path ↔ path ≠ "" ∧ Stays path := by
  constructor
  · intro h
    exact ⟨h.nonempty, h.relative, fun hup => h.down ((parent_mem_parts h.relative).2 hup)⟩
  · rintro ⟨hne, hrelative, hdown⟩
    exact ⟨hrelative, hne, fun hup => hdown ((parent_mem_parts hrelative).1 hup)⟩

/-- A path that goes down only leads to something below any directory that it is joined to. -/
theorem Confined.below {path : String} (h : Confined path) (base : String) : Below base (join base path) := by
  have hdown : Part.parent ∉ pieceParts (path.toList.splitOn '/') := fun hup =>
    h.down ((parent_mem_parts h.relative).2 (parent_mem_pieceParts.1 hup))
  by_cases hempty : base = ""
  · subst hempty
    rw [join_empty]
    exact ⟨parts path, rfl, isAbsolute_eq_false_iff.1 h.relative, h.down⟩
  · refine ⟨pieceParts (path.toList.splitOn '/'), ?_, root_not_mem_pieceParts, hdown⟩
    rw [join, h.relative]
    by_cases hlast : base.toList.getLast? = some '/'
    · simp [hlast, parts_append_of_separator hlast]
    · simp [hempty, hlast, parts_append_separator hempty]

/-! ## Paths that are joined -/

/-- A path that is not empty stays so below another. -/
theorem join_ne_empty (a : String) {b : String} (hb : b ≠ "") : join a b ≠ "" := by
  unfold join
  split
  next => exact hb
  next =>
    split
    next => simp [hb]
    next => simp [hb]

/-- Whether a path is absolute is seen at its start. -/
theorem isAbsolute_append {a : String} (ha : a ≠ "") (b : String) : isAbsolute (a ++ b) = isAbsolute a := by
  have hne : a.toList ≠ [] := fun hnil => ha (String.toList_eq_nil_iff.1 hnil)
  rw [isAbsolute, isAbsolute, String.toList_append, List.head?_append_of_ne_nil _ hne]

/-- A joined path stays where both of its halves do. -/
theorem stays_join (a b : String) : Stays (join a b) ↔ Stays a ∧ Stays b := by
  unfold join
  by_cases habsolute : isAbsolute b = true
  · rw [if_pos habsolute]
    have hb : ¬Stays b := fun h => Bool.false_ne_true (h.1.symm.trans habsolute)
    simp [hb]
  · have hrelative : isAbsolute b = false := Bool.eq_false_iff.2 habsolute
    rw [if_neg habsolute]
    by_cases hempty : a = ""
    · subst hempty
      have hstays : Stays "" := by decide
      simp [hstays]
    · -- a separator at the end of the first path leaves an empty piece there, which is not written twice
      by_cases hlast : a.toList.getLast? = some '/'
      · obtain ⟨front, hfront⟩ := List.getLast?_eq_some_iff.1 hlast
        have ha : a.toList.splitOn '/' = front.splitOn '/' ++ [[]] := by
          rw [hfront, List.splitOn_append_cons_self]
          rfl
        have hab : (a ++ b).toList.splitOn '/' = front.splitOn '/' ++ b.toList.splitOn '/' := by
          rw [String.toList_append, hfront, List.append_assoc, List.singleton_append, List.splitOn_append_cons_self]
        rw [if_pos (by simp [hlast]), Stays, Stays, Stays, isAbsolute_append hempty, ha, hab, hrelative]
        simp only [List.mem_append, List.mem_singleton, not_or, true_and]
        have hne : ['.', '.'] ≠ ([] : List Char) := List.cons_ne_nil _ _
        tauto
      · have hab : (a ++ "/" ++ b).toList.splitOn '/' = a.toList.splitOn '/' ++ b.toList.splitOn '/' := by
          rw [String.append_assoc, String.toList_append, String.toList_append]
          exact List.splitOn_append_cons_self _ _
        rw [if_neg (by simp [hempty, hlast]), Stays, Stays, Stays, String.append_assoc, isAbsolute_append hempty,
          ← String.append_assoc, hab, hrelative, List.mem_append]
        tauto

/-- A path of components stays if each of them does. -/
theorem stays_foldl_join (a : String) (components : List String) :
    Stays (components.foldl join a) ↔ Stays a ∧ ∀ c ∈ components, Stays c := by
  induction components generalizing a with
  | nil => simp
  | cons c components ih => rw [List.foldl_cons, ih, stays_join, List.forall_mem_cons, and_assoc]

/-- The directory of a namespace stays if each of its components does. -/
theorem stays_ofComponents {components : List String} : Stays (ofComponents components) ↔ ∀ c ∈ components, Stays c := by
  have hempty : Stays "" := by decide
  rw [ofComponents, stays_foldl_join, and_iff_right hempty]

/-! ## Names with extensions -/

/-- An extension as it is put behind a name: one dot, and no second one behind it. -/
def Extension (ext : String) : Prop := ∃ rest, ext.toList = '.' :: rest ∧ rest.head? ≠ some '.'

theorem Extension.ne_empty {ext : String} (h : Extension ext) : ext ≠ "" := by
  obtain ⟨rest, hext, _⟩ := h
  rintro rfl
  cases hext

theorem splitOn_dot_cons (rest : List Char) : ('.' :: rest).splitOn '/' = (rest.splitOn '/').modifyHead ('.' :: ·) := by
  rw [List.splitOn_cons_eq_if_modifyHead, if_neg (by decide)]

/-- A name that begins a file name holds nothing back: what stands behind it stays or does not. -/
theorem Stem.stays_append {name ext : String} (h : Stem name) (hext : Extension ext) : Stays (name ++ ext) ↔ Stays ext := by
  obtain ⟨c, rest, hname, hdot⟩ := h.start
  obtain ⟨tail, htail, hhead⟩ := hext
  obtain ⟨piece, pieces, hpieces⟩ := List.exists_cons_of_ne_nil (List.splitOn_ne_nil '/' tail)
  have hsplit : ext.toList.splitOn '/' = ('.' :: piece) :: pieces := by
    rw [htail, splitOn_dot_cons, hpieces]
    rfl
  have hwhole : (name ++ ext).toList.splitOn '/' = (name.toList ++ '.' :: piece) :: pieces := by
    rw [String.toList_append, splitOn_append_of_not_mem h.whole, hsplit]
    rfl
  have hfirst : ['.', '.'] ≠ name.toList ++ '.' :: piece := by
    rw [hname, List.cons_append]
    exact fun heq => hdot (List.cons.inj heq).1.symm
  -- the extension is not two dots followed by a separator or by nothing
  have hown : ['.', '.'] ≠ '.' :: piece := by
    intro heq
    obtain rfl : piece = ['.'] := (List.cons.inj heq).2.symm
    have hjoin : ['/'].intercalate (['.'] :: pieces) = tail := hpieces ▸ List.intercalate_splitOn '/'
    apply hhead
    rw [← hjoin]
    cases pieces <;> simp [List.intercalate_cons_cons]
  have hrelative : isAbsolute (name ++ ext) = false := isAbsolute_eq_false.2 (h.bare_append ext).root
  have hrelative' : isAbsolute ext = false := isAbsolute_eq_false.2 fun r hr => by
    rw [htail] at hr
    cases hr
  rw [Stays, Stays, hrelative, hrelative', hwhole, hsplit]
  simp [hfirst, hown]

/-- An identifier stays: it has neither separators nor dots. -/
theorem stays_of_isIdentifier {name : String} (h : isIdentifier name = true) : Stays name := by
  have hstem := stem_of_isIdentifier h
  obtain ⟨c, rest, hname, hdot⟩ := hstem.start
  have hone : name.toList.splitOn '/' = [name.toList] := by
    have hsplit := splitOn_append_of_not_mem hstem.whole []
    rwa [List.append_nil, List.splitOn_nil, List.headD_cons, List.append_nil] at hsplit
  refine ⟨isAbsolute_eq_false.2 hstem.bare.root, fun hup => ?_⟩
  rw [hone, List.mem_singleton, hname] at hup
  exact hdot (List.cons.inj hup).1.symm

end Path

/-- An extension of the user's choice is one, like the default. -/
theorem Options.extensionOr_extension (o : Options) {default : String} (h : Path.Extension default) :
    Path.Extension (o.extensionOr default) := by
  unfold extensionOr
  cases o.fileExtension with
  | none => exact h
  | some e =>
    refine ⟨e.toList.dropWhile (· == '.'), by simp, fun hdot => ?_⟩
    have hhead := List.head?_dropWhile_not (· == '.') e.toList
    rw [hdot] at hhead
    cases hhead

/-! ## When the files of a run stay -/

namespace Language

/-- The path of a single file. -/
def singleFile (o : Options) (s : Schema) (default : String) : String := s.fileName ++ o.fileSuffix ++ o.extensionOr default

/-- What a language puts into the paths of its files as it is. -/
def looseTexts (o : Options) (s : Schema) : Language → List String
  | .python => if o.oneFile then [singleFile o s ".py"] else s.definitions.map fun _ => o.extensionOr ".py"
  | .go =>
    if o.oneFile then [singleFile o s ".go"]
    else s.definitions.flatMap fun d => o.extensionOr ".go" ::
      if (Go.packageOf o d.scope).isRoot then [s.fileName] else (Go.packageOf o d.scope).components
  | .csharp =>
    if o.oneFile then [singleFile o s ".cs"]
    else s.definitions.map fun d => if d.scope.isRoot then s.fileName ++ o.extensionOr ".cs" else o.extensionOr ".cs"
  | .lua => s.definitions.map fun _ => o.extensionOr ".lua"
  | .jsonSchema => [s.fileName ++ o.extensionOr ".schema.json"]
  | .fbs => [singleFile o s ".fbs"]

/-- Nothing that is put into paths as it is starts at the root or goes up. -/
def Confines (o : Options) (s : Schema) (l : Language) : Prop := ∀ text ∈ l.looseTexts o s, Path.Stays text

instance (o : Options) (s : Schema) (l : Language) : Decidable (l.Confines o s) := inferInstanceAs (Decidable (∀ _ ∈ _, _))

end Language

/-- The paths of some files stay. -/
def OutputFile.Stay (files : List OutputFile) : Prop := ∀ f ∈ files, Path.Confined f.path

namespace Target

variable {t : Target} {env : Env} {s : Schema} {o : Options}

/-- The files of a run stay if those of the definitions do, and the companions with them. -/
theorem stay_iff {files : List OutputFile} {P : Prop} (h : t.render s o = .ok files)
    (hcompanions : ∀ rendered, OutputFile.Stay rendered → OutputFile.Stay (t.companions (t.env s o) rendered))
    (hgroups : (∀ g ∈ t.groups (t.env s o), Path.Confined g.path) ↔ P) : OutputFile.Stay files ↔ P := by
  obtain ⟨rendered, rfl, hpaths⟩ := render_eq_ok h
  have hrendered : OutputFile.Stay rendered ↔ P := by
    rw [← hgroups, OutputFile.Stay, ← List.forall_mem_map (f := OutputFile.path) (P := Path.Confined), hpaths, List.forall_mem_map]
  rw [← hrendered]
  constructor
  · intro hall f hf
    exact hall f (List.mem_append_left _ hf)
  · intro hstay f hf
    rcases List.mem_append.1 hf with hf | hf
    · exact hstay f hf
    · exact hcompanions rendered hstay f hf

/-- The one file is confined if its path is. -/
theorem confined_groups_oneFile (hlayout : t.layout = .oneFile) :
    (∀ g ∈ t.groups env, Path.Confined g.path) ↔ Path.Confined (t.singlePath env) := by
  unfold groups
  rw [hlayout]
  simp

/-- Files of namespaces are confined if the paths of the namespaces are. -/
theorem confined_groups_perNamespace (hlayout : t.layout = .perNamespace) :
    (∀ g ∈ t.groups env, Path.Confined g.path) ↔ ∀ d ∈ env.schema.definitions, Path.Confined (t.scopePath env d.scope) := by
  unfold groups
  rw [hlayout]
  dsimp only
  rw [FileGroup.foldl_add]
  simp [FileGroup.ofScope]

/-- Files of definitions are confined if the paths of the definitions are. -/
theorem confined_groups_perDefinition (hlayout : t.layout = .perDefinition) :
    (∀ g ∈ t.groups env, Path.Confined g.path) ↔ ∀ d ∈ env.schema.definitions, Path.Confined (t.definitionPath env d) := by
  unfold groups
  rw [hlayout]
  simp

end Target

/-! ## Languages with a file for each definition -/

/-- A path that ends in an extension. -/
theorem Path.confined_append {text ext : String} (hext : Extension ext) : Confined (text ++ ext) ↔ Stays (text ++ ext) := by
  rw [confined_iff, and_iff_right]
  intro hempty
  exact hext.ne_empty (String.append_eq_empty_iff.1 hempty).2

section PerDefinition

variable {doc : SchemaDoc} {names : NameTable} {declared : List StructDef} {s : Schema} {d : Definition}

/-- The file of a definition in a directory stays if the directory and the extension do. -/
theorem Loaded.confined_join (h : Loaded doc names declared s) (hd : d ∈ s.definitions) {ext : String}
    (hext : Path.Extension ext) (directory : String) :
    Path.Confined (Path.join directory (d.name ++ ext)) ↔ Path.Stays ext ∧ Path.Stays directory := by
  have hstem := Path.stem_of_isIdentifier (h.definition_named hd).1
  have hne : d.name ++ ext ≠ "" := fun hempty => hext.ne_empty (String.append_eq_empty_iff.1 hempty).2
  rw [Path.confined_iff, and_iff_right (Path.join_ne_empty _ hne), Path.stays_join, hstem.stays_append hext, and_comm]

/-- The file of a definition is confined if its extension stays: the rest of its path is made of identifiers. -/
theorem Loaded.confined_definitionPath (h : Loaded doc names declared s) {n : Namer} (hn : n.Plain)
    (hext : Path.Extension n.fileExtension) (hd : d ∈ s.definitions) :
    Path.Confined (Path.join (n.directory d.scope) (n.file d.name)) ↔ Path.Stays n.fileExtension := by
  have hdirectory : Path.Stays (n.directory d.scope) := by
    rw [hn.directory_eq]
    exact Path.stays_ofComponents.2 fun c hc => Path.stays_of_isIdentifier ((h.definition_named hd).2 c hc)
  rw [hn.file_eq, h.confined_join hd hext, and_iff_left hdirectory]

end PerDefinition

/-! ## Companions -/

/-- The directories around a path go up no more than the path. -/
theorem Path.Confined.stays_around {dir path : String} (h : Confined path) (haround : Around (parts dir) (parts path)) :
    Stays dir := by
  have hparts := haround.2.1.subset
  have hrelative : isAbsolute dir = false := isAbsolute_eq_false_iff.2 fun hroot =>
    isAbsolute_eq_false_iff.1 h.relative (hparts hroot)
  exact ⟨hrelative, fun hup => h.down (hparts ((parent_mem_parts hrelative).2 hup))⟩

/-- The markers of packages stay where the modules do. -/
theorem Python.companions_stay {o : Options} {s : Schema} {rendered : List OutputFile}
    (hstay : OutputFile.Stay rendered) : OutputFile.Stay (companions ((target o).env s o) rendered) := by
  unfold companions
  split
  next => exact fun f hf => absurd hf List.not_mem_nil
  next =>
    intro f hf
    obtain ⟨dir, hdir, rfl⟩ := List.mem_map.1 hf
    obtain ⟨file, hfile, haround⟩ := (packages_iff rendered _).1 ⟨dir, hdir, rfl⟩
    have hdirectory := (hstay file hfile).stays_around haround
    have hmarker : Path.Stays "__init__.py" := by decide
    have hne : Path.join dir "__init__.py" ≠ "" := Path.join_ne_empty _ (by decide)
    exact Path.confined_iff.2 ⟨hne, (Path.stays_join _ _).2 ⟨hdirectory, hmarker⟩⟩

/-! ## All languages -/

namespace Language

variable {doc : SchemaDoc} {names : NameTable} {declared : List StructDef} {s : Schema} {o : Options} {files : List OutputFile}

/-- If only one text is put into paths as it is, this text has to stay. -/
theorem confines_singleton {l : Language} {path : String} (h : l.looseTexts o s = [path]) : l.Confines o s ↔ Path.Stays path := by
  rw [Confines, h, List.forall_mem_singleton]

/-- A language that writes a single file. -/
theorem stay_oneFile {l : Language} (hlayout : (l.target o).layout = .oneFile) {text default : String}
    (hdefault : Path.Extension default)
    (hpath : (l.target o).singlePath ((l.target o).env s o) = text ++ o.extensionOr default)
    (hloose : l.looseTexts o s = [text ++ o.extensionOr default])
    (hcompanions : ∀ rendered, (l.target o).companions ((l.target o).env s o) rendered = [])
    (hfiles : (l.target o).render s o = .ok files) : OutputFile.Stay files ↔ l.Confines o s := by
  refine Target.stay_iff hfiles (fun rendered _ => ?_) ?_
  · rw [hcompanions]
    exact fun f hf => absurd hf List.not_mem_nil
  · rw [Target.confined_groups_oneFile hlayout, hpath, Path.confined_append (o.extensionOr_extension hdefault),
      confines_singleton hloose]

end Language

/-- The files stay if and only if their extension does, if there are any. The markers of packages always stay. -/
theorem Python.stay_iff {doc : SchemaDoc} {names : NameTable} {declared : List StructDef} {s : Schema} {o : Options}
    {files : List OutputFile} (h : Loaded doc names declared s) (ho : o.oneFile = false)
    (hfiles : (target o).render s o = .ok files) : OutputFile.Stay files ↔ Language.python.Confines o s := by
  refine Target.stay_iff hfiles (fun rendered hstay => companions_stay hstay) ?_
  have hext : Path.Extension (o.extensionOr ".py") := o.extensionOr_extension ⟨_, rfl, by decide⟩
  rw [Target.confined_groups_perDefinition (layout_of_spread ho), Language.Confines, Language.looseTexts, ho, if_neg Bool.false_ne_true,
    List.forall_mem_map]
  refine forall₂_congr fun d hd => ?_
  rw [definitionPath_eq]
  exact h.confined_definitionPath (namer_plain o) hext hd

/-- The files stay if and only if their extension does, if there are any. -/
theorem Lua.stay_iff {doc : SchemaDoc} {names : NameTable} {declared : List StructDef} {s : Schema} {o : Options}
    {files : List OutputFile} (h : Loaded doc names declared s) (hfiles : (target o).render s o = .ok files) :
    OutputFile.Stay files ↔ Language.lua.Confines o s := by
  have hext : Path.Extension (o.extensionOr ".lua") := o.extensionOr_extension ⟨_, rfl, by decide⟩
  refine Target.stay_iff hfiles (fun rendered _ f hf => absurd hf List.not_mem_nil) ?_
  rw [Target.confined_groups_perDefinition rfl, Language.Confines, Language.looseTexts, List.forall_mem_map]
  refine forall₂_congr fun d hd => ?_
  dsimp only [target, Target.env]
  exact h.confined_definitionPath (namer_plain o) hext hd

/-- The directory of a package stays if the name of the schema or the components of the package do. -/
theorem Go.stays_packagePath (o : Options) (s : Schema) (scope : Namespace) : Path.Stays (packagePath o s scope) ↔
    ∀ text ∈ (if (packageOf o scope).isRoot then [s.fileName] else (packageOf o scope).components), Path.Stays text := by
  unfold packagePath
  split
  next => rw [List.forall_mem_singleton]
  next => rw [(namer_plain o).directory_eq, Path.stays_ofComponents]

/-- The files stay if and only if their extension does and the packages do, be they chosen or named after the schema. -/
theorem Go.stay_iff {doc : SchemaDoc} {names : NameTable} {declared : List StructDef} {s : Schema} {o : Options}
    {files : List OutputFile} (h : Loaded doc names declared s) (ho : o.oneFile = false)
    (hfiles : (target o).render s o = .ok files) : OutputFile.Stay files ↔ Language.go.Confines o s := by
  have hlayout : (target o).layout = .perDefinition := if_neg (by simp [ho])
  have hext : Path.Extension (o.extensionOr ".go") := o.extensionOr_extension ⟨_, rfl, by decide⟩
  refine Target.stay_iff hfiles (fun rendered _ f hf => absurd hf List.not_mem_nil) ?_
  rw [Target.confined_groups_perDefinition hlayout, Language.Confines, Language.looseTexts, ho, if_neg Bool.false_ne_true,
    List.forall_mem_flatMap]
  refine forall₂_congr fun d hd => ?_
  have hpath : (target o).definitionPath ((target o).env s o) d =
      Path.join (packagePath o s d.scope) ((namer o).file d.name) := by
    dsimp only [target, Target.env, definitionPath, packagePath]
  have hfile : (namer o).file d.name = d.name ++ o.extensionOr ".go" := (namer_plain o).file_eq d.name
  rw [hpath, hfile, h.confined_join hd hext, stays_packagePath, List.forall_mem_cons]

/-- The files stay if and only if their extension does, behind the file name of the schema for the root namespace. -/
theorem CSharp.stay_iff {doc : SchemaDoc} {names : NameTable} {declared : List StructDef} {s : Schema} {o : Options}
    {files : List OutputFile} (h : Loaded doc names declared s) (ho : o.oneFile = false)
    (hfiles : (target o).render s o = .ok files) : OutputFile.Stay files ↔ Language.csharp.Confines o s := by
  have hlayout : (target o).layout = .perNamespace := if_neg (by simp [ho])
  have hext : Path.Extension (o.extensionOr ".cs") := o.extensionOr_extension ⟨_, rfl, by decide⟩
  refine Target.stay_iff hfiles (fun rendered _ f hf => absurd hf List.not_mem_nil) ?_
  rw [Target.confined_groups_perNamespace hlayout, Language.Confines, Language.looseTexts, ho, if_neg Bool.false_ne_true,
    List.forall_mem_map]
  refine forall₂_congr fun d hd => ?_
  rw [scopePath_eq, Path.confined_append hext]
  cases hroot : d.scope.isRoot with
  | true => rfl
  | false => exact (dotted_stem (h.definition_named hd).2 hroot).stays_append hext

/-- The files of a run stay exactly when what is put into their paths as it is does. -/
theorem Language.stay_iff {doc : SchemaDoc} {names : NameTable} {declared : List StructDef} {s : Schema}
    (h : Loaded doc names declared s) (language : Language) {o : Options} {files : List OutputFile}
    (hfiles : (language.target o).render s o = .ok files) : OutputFile.Stay files ↔ language.Confines o s := by
  cases language with
  | jsonSchema => exact stay_oneFile (l := .jsonSchema) rfl ⟨_, rfl, by decide⟩ rfl rfl (fun _ => rfl) hfiles
  | fbs => exact stay_oneFile (l := .fbs) rfl ⟨_, rfl, by decide⟩ rfl rfl (fun _ => rfl) hfiles
  | lua => exact Lua.stay_iff h hfiles
  | python =>
    cases ho : o.oneFile with
    | true => exact stay_oneFile (l := .python) (if_pos ho) ⟨_, rfl, by decide⟩ rfl (if_pos ho) (fun _ => if_pos ho) hfiles
    | false => exact Python.stay_iff h ho hfiles
  | go =>
    cases ho : o.oneFile with
    | true => exact stay_oneFile (l := .go) (if_pos ho) ⟨_, rfl, by decide⟩ rfl (if_pos ho) (fun _ => rfl) hfiles
    | false => exact Go.stay_iff h ho hfiles
  | csharp =>
    cases ho : o.oneFile with
    | true => exact stay_oneFile (l := .csharp) (if_pos ho) ⟨_, rfl, by decide⟩ rfl (if_pos ho) (fun _ => rfl) hfiles
    | false => exact CSharp.stay_iff h ho hfiles

/-! ## What a sink is handed -/

namespace Sink

/-- A sink that keeps the paths that it is handed. -/
def recording : Sink (List String) where
  save log path _ := .ok (log ++ [path])

/-- The recording writer notes the paths of all files, in order. -/
theorem recording_writeAll (output : String) : ∀ (files : List OutputFile) (log : List String),
    (recording.writeAll output log files).1 = log ++ files.map fun f => Path.join output f.path
  | [], log => (List.append_nil log).symm
  | f :: rest, log => by
    rw [List.map_cons, List.append_cons, ← recording_writeAll output rest, writeAll]
    simp only [recording]
    split
    next heq => rw [heq]
    next heq => rw [heq]

/-- Two sinks that agree on the paths of some files are told apart by none of them. -/
theorem writeAll_congr {σ : Type} {sink sink' : Sink σ} {output : String} : ∀ {files : List OutputFile} {state : σ},
    (∀ f ∈ files, ∀ state contents, sink.save state (Path.join output f.path) contents =
      sink'.save state (Path.join output f.path) contents) →
    sink.writeAll output state files = sink'.writeAll output state files
  | [], _, _ => rfl
  | f :: rest, state, h => by
    obtain ⟨hf, hrest⟩ := List.forall_mem_cons.1 h
    rw [writeAll, writeAll, hf]
    cases sink'.save state (Path.join output f.path) f.contents with
    | error e => rfl
    | ok state =>
      dsimp only
      rw [writeAll_congr hrest]

end Sink

/-- A schema that a document gives is rendered for every language and with all options. Its files lead down from the output directory
exactly when nothing that is put into their paths as it is starts at the root or goes up. A sink is handed each of these paths behind
the output directory, and in that case it is handed nothing that is not below. -/
theorem Schema.ofDocument_confined_iff {doc : SchemaDoc} {s : Schema} (h : Schema.ofDocument doc = .ok s) (language : Language)
    (options : Options) :
    ∃ files, (language.target options).render s options = .ok files ∧
      ((∀ f ∈ files, Path.Confined f.path) ↔ language.Confines options s) ∧
      (∀ output, ((language.target options).generate s options Sink.recording [] output).1 =
        files.map fun f => Path.join output f.path) ∧
      (language.Confines options s → ∀ output, (∀ f ∈ files, Path.Below output (Path.join output f.path)) ∧
        ∀ (σ : Type) (sink sink' : Sink σ) (state : σ),
          (∀ state path contents, Path.Below output path → sink.save state path contents = sink'.save state path contents) →
          (language.target options).generate s options sink state output =
            (language.target options).generate s options sink' state output) := by
  obtain ⟨names, declared, h⟩ := Schema.ofDocument_loaded h
  obtain ⟨files, hfiles, _⟩ := (language.target_total options h.closed).renders h.valid
  have hstay := language.stay_iff h hfiles
  refine ⟨files, hfiles, hstay, fun output => ?_, fun hconfines output => ?_⟩
  · rw [Target.generate, hfiles]
    exact Sink.recording_writeAll output files []
  · have hbelow : ∀ f ∈ files, Path.Below output (Path.join output f.path) := fun f hf => (hstay.2 hconfines f hf).below output
    refine ⟨hbelow, fun σ sink sink' state hagree => ?_⟩
    rw [Target.generate, Target.generate, hfiles]
    exact Sink.writeAll_congr fun f hf state contents => hagree state _ contents (hbelow f hf)

theorem sampleDoc_confined : ∃ s, Schema.ofDocument sampleDoc = .ok s ∧ ∀ language : Language,
    ∃ files, (language.target {}).render s {} = .ok files ∧ ∀ f ∈ files, Path.Below "out" (Path.join "out" f.path) := by
  obtain ⟨s, hs, hseen⟩ := Schema.exists_ofDocument sampleDoc
    (fun s => decide (∀ language ∈ [Language.python, .go, .csharp, .lua, .jsonSchema, .fbs], language.Confines {} s)) true
    (by decide +kernel)
  refine ⟨s, hs, fun language => ?_⟩
  obtain ⟨files, hfiles, _, _, hbelow⟩ := Schema.ofDocument_confined_iff hs language {}
  exact ⟨files, hfiles, (hbelow (of_decide_eq_true hseen language (by cases language <;> decide)) "out").1⟩

/-- A schema with a single table and a name that goes up. -/
def climbingDoc : SchemaDoc where
  fileName := "../f"
  structs := [{ name := "T" }]

/-- Files that leave the output directory: by the name of the schema, by an extension, and by a package that starts at the root. -/
theorem climbingDoc_leaves : ∃ s, Schema.ofDocument climbingDoc = .ok s ∧
    ((Fbs.target {}).generate s {} Sink.recording [] "out").1 = ["out/../f_generated.fbs"] ∧
    ((Lua.target { fileExtension := some "/../../x" }).generate s { fileExtension := some "/../../x" } Sink.recording []
      "out").1 = ["out/T./../../x"] ∧
    ((Go.target { package := some "/etc" }).generate s { package := some "/etc" } Sink.recording [] "out").1 =
      ["/etc/T.go"] := by
  obtain ⟨s, hs, hseen⟩ := Schema.exists_ofDocument climbingDoc
    (fun s => decide (((Fbs.target {}).generate s {} Sink.recording [] "out").1 = ["out/../f_generated.fbs"] ∧
      ((Lua.target { fileExtension := some "/../../x" }).generate s { fileExtension := some "/../../x" } Sink.recording []
        "out").1 = ["out/T./../../x"] ∧
      ((Go.target { package := some "/etc" }).generate s { package := some "/etc" } Sink.recording [] "out").1 =
        ["/etc/T.go"])) true (by decide +kernel)
  exact ⟨s, hs, of_decide_eq_true hseen⟩

end FlatSchema

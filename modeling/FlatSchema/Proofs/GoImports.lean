import FlatSchema.Proofs.GoMentions
import FlatSchema.Proofs.ImportStatements
import FlatSchema.Proofs.Indentation

/-!
# The imports of Go files

A file states the imports that its definitions ask for, in front of its body. They fit (`ImportsFit`): each is used by the body, and
whatever the body takes from another package is imported. The package of the root goes by the file name of the schema, which is
written as it is. Where that name has a line break, the import falls apart (`Schema.ofDocument_importsFit_iff`).
-/

namespace FlatSchema

/-! ## What a file asks for -/

/-- Inserting an import adds it and nothing else. -/
theorem mem_insertSorted {x item : String} : ∀ {known : List String}, x ∈ insertSorted item known ↔ x = item ∨ x ∈ known
  | [] => by simp [insertSorted]
  | k :: known => by
    rw [insertSorted]
    split
    · exact List.mem_cons
    · split
      next heq => simp [heq]
      next => rw [List.mem_cons, mem_insertSorted, List.mem_cons, or_left_comm]

/-- Inserting imports adds them and nothing else. -/
theorem mem_foldl_insertSorted {x : String} : ∀ {items known : List String},
    x ∈ items.foldl (fun known item => insertSorted item known) known ↔ x ∈ known ∨ x ∈ items
  | [], known => by simp
  | item :: items, known => by
    rw [List.foldl_cons, mem_foldl_insertSorted, mem_insertSorted, List.mem_cons, or_comm (a := x = item), or_assoc]

/-- A file imports what its definitions ask for. -/
theorem Emission.mem_imports_stateAfter {scope current : Namespace} {es : List Emission} {item : String} :
    item ∈ (stateAfter scope es current).imports ↔ ∃ e ∈ es, item ∈ Code.imports e.code := by
  rw [stateAfter, mem_foldl_insertSorted, List.mem_flatMap]
  simp

end FlatSchema

namespace FlatSchema.Go

open Code Emission

/-! ## The parts of a file -/

/-- The start of a file before its imports. -/
def packageClause (env : Env) (scope : Namespace) : Code :=
  line "// Code generated by the FlatBuffers compiler. DO NOT EDIT." ++ blank ++ line s!"package {packageName env scope}" ++ blank

/-- Between definitions nothing is written: a file has one package. -/
theorem written_eq (o : Options) (env : Env) : ∀ (es : List Emission) (n : Namespace),
    written (target o) env n es = es.flatMap (·.code)
  | [], _ => rfl
  | e :: es, n => by
    have hmove := Language.go.move_eq_nil o env (by decide) { source := n, target := e.definition.scope }
    rw [written, written_eq o env es, List.flatMap_cons]
    exact congrArg (· ++ e.code ++ _) hmove

instance keyless_importLines (imports : List String) : Balanced Step.Keyless (importLines imports) := by
  unfold importLines
  infer_instance

/-- The import statements leave no line open. -/
theorem calm_importLines (imports : List String) : Calm (importLines imports) := by
  unfold importLines
  dsimp only
  split
  · exact .flatMap (fun i => (Settles.blank.after _).calm) _
  · exact (Settles.blank.after _).calm

/-- The text of the imports of a file. -/
def importText (r : FileRun) : String :=
  Writer.render "\t" (importLines (stateAfter r.group.scope r.emissions (lastScope r.group.scope r.emissions)).imports)

/-- The text of the definitions of a file. -/
def bodyText (r : FileRun) : String := Writer.render "\t" (r.emissions.flatMap (·.code))

/-- A file is its package clause, its imports and its body. -/
theorem contents_eq {o : Options} {env : Env} {r : FileRun} (h : (target o).Wrote env r) : r.file.contents =
    Writer.render "\t" (packageClause env r.group.scope) ++ importText r ++ bodyText r := by
  obtain ⟨_, _, ⟨⟩, ⟨⟩, hcontents⟩ := h.contents
  have hmove : (target o).move env { source := lastScope {} r.emissions, target := {} } = [] :=
    Language.go.move_eq_nil o env (by decide) _
  have hclause : Balanced Step.Keyless (packageClause env r.group.scope) := by
    unfold packageClause
    infer_instance
  have hcalm : Calm (packageClause env r.group.scope) := (Settles.blank.after _).calm
  have hheader : header env (stateAfter r.group.scope r.emissions (lastScope r.group.scope r.emissions)) =
      packageClause env r.group.scope ++
        importLines (stateAfter r.group.scope r.emissions (lastScope r.group.scope r.emissions)).imports := rfl
  have hraw : ∀ unit text : String, Writer.render unit [.raw text] = text := fun _ _ => String.empty_append
  rw [hcontents, written_eq, hmove, List.append_nil, List.append_nil, hheader, List.append_assoc, Writer.render_append hcalm,
    Writer.render_append (calm_importLines _), hraw, String.append_assoc]
  rfl

/-! ## Where imports come from -/

/-- The code that a target gave for a definition of a file is a template, filled in for the package of the definition. -/
theorem emission_template {o : Options} {env : Env} {r : FileRun} (h : (target o).Wrote env r) {e : Emission}
    (he : e ∈ r.emissions) : ∃ t : Template, t.Sound env (libraries env e.definition) ∧
      e.code = when (e.state.emitted > 0) blank ++ t.code ⟨env, e.definition.scope⟩ ∧
      ∀ here, definitionCode ⟨env, here⟩ e.definition = .ok (t.code ⟨env, here⟩) := by
  obtain ⟨done, rest, hes⟩ := List.append_of_mem he
  obtain ⟨hstate, hdefine⟩ := h.asked done e rest hes
  have hcurrent : e.state.current = e.definition.scope := by
    rw [hstate]
    rfl
  obtain ⟨t, hsound, hcode, hall⟩ := define_template hdefine
  exact ⟨t, hsound, hcurrent ▸ hcode, hall⟩

theorem imports_gap (gap : Bool) (c : Code) : Code.imports (when gap blank ++ c) = Code.imports c := by
  cases gap <;> rfl

/-- Where an import of a definition comes from, and the name that it has in the code. -/
inductive Origin (site : Site) (name item : String) : Prop
  | library (h : (name, item) ∈ libraryImports)
  | package (scope : Namespace) (hknown : Known site.toEnv scope) (hforeign : site.Foreign scope)
      (hname : name = packageAlias site.toEnv scope) (hitem : item = packageImport site.toEnv scope)

/-- Every import of a definition has an origin, and its name stands in the code. -/
theorem exists_origin {o : Options} {env : Env} {r : FileRun} (h : (target o).Wrote env r) {e : Emission} (he : e ∈ r.emissions)
    {item : String} (hitem : item ∈ Code.imports e.code) :
    ∃ name, Says (name ++ ".") e.code ∧ Origin ⟨env, e.definition.scope⟩ name item := by
  obtain ⟨t, hsound, hcode, hall⟩ := emission_template h he
  rw [hcode, imports_gap, t.mem_imports_code] at hitem
  rw [hcode]
  rcases hitem with hrequired | ⟨scope, name, ⟨ws, hws, hname⟩, hforeign, rfl⟩
  · obtain ⟨name, hname, huses⟩ := uses_libraries (hsound.required hrequired)
    exact ⟨name, .right _ (huses _ _ (hall _)).said, .library hname⟩
  · have hsaid := infix_spell hname hforeign
    refine ⟨packageAlias env scope, .right _ ⟨spell ⟨env, e.definition.scope⟩ ws, Template.line_mem_code hws, hsaid⟩, ?_⟩
    exact .package scope (hsound.known ws hws scope name hname) hforeign rfl rfl

/-- The names and the imports fit in lines, unless the file name of the schema is put in and does not. -/
theorem Origin.statable {o : Options} {s : Schema} (hvalid : s.validate = .ok ()) {here : Namespace} {name item : String}
    (h : Origin ⟨(target o).env s o, here⟩ name item)
    (hroot : item = packageImport ((target o).env s o) {} → '\n' ∉ s.fileName.toList) : '\n' ∉ name.toList ∧ Statable item := by
  cases h with
  | library h =>
    have hall : ∀ l ∈ libraryImports, '\n' ∉ l.1.toList ∧ Statable l.2 := by
      simp only [libraryImports, List.forall_mem_cons]
      refine ⟨⟨?_, ?_, ?_⟩, ⟨?_, ?_, ?_⟩, ⟨?_, ?_, ?_⟩, ?_⟩ <;>
        simp [strconvImport, bytesImport, runtimeImport]
    exact hall _ h
  | package scope hknown hforeign hname hitem =>
    subst hname hitem
    obtain ⟨_, _, hfound⟩ := hknown.found
    have hnamed := (Schema.nameAt?_isIdentifier hvalid hfound).2
    obtain ⟨halias, hpath⟩ := noBreak_package hnamed fun h => hroot (congrArg _ (Namespace.eq_of_isRoot h rfl))
    refine ⟨halias, ?_, ?_⟩
    · simp [packageImport, halias, hpath]
    · rw [packageImport, String.toList_append, List.getLast?_append]
      rfl

/-- A name in front of a dot stays in one piece. -/
theorem unbroken_dotted {name : String} (h : '\n' ∉ name.toList) : Unbroken (name ++ ".").toList := by
  rw [String.toList_append]
  refine ⟨?_, '.', List.getLast?_append, by decide⟩
  rw [List.mem_append, not_or]
  exact ⟨h, by decide⟩

/-! ## Imports that fit -/

/-- The imports of a Go file fit its body. Which names the code of a definition takes from elsewhere is seen from a template, which,
filled in for any package, is the code that is written there. -/
structure ImportsFit (env : Env) (es : List Emission) (imports body : String) : Prop where
  /-- The name of every import stands in the body in front of a dot. -/
  used : ∀ item ∈ readImports imports, ∃ e ∈ es, ∃ name,
    Origin ⟨env, e.definition.scope⟩ name item ∧ (name ++ ".").toList <:+: body.toList
  /-- Every name that stands behind the name of its package has the import of the package. -/
  packages : ∀ e ∈ es, ∃ t : Template, t.Sound env (Go.libraries env e.definition) ∧
    (∀ here, definitionCode ⟨env, here⟩ e.definition = .ok (t.code ⟨env, here⟩)) ∧
    e.code = when (e.state.emitted > 0) blank ++ t.code ⟨env, e.definition.scope⟩ ∧
    ∀ scope name, t.Mentions scope name → Site.Foreign ⟨env, e.definition.scope⟩ scope →
      packageImport env scope ∈ readImports imports
  /-- Every definition has the imports of its libraries. -/
  libraries : ∀ e ∈ es, libraries env e.definition ⊆ readImports imports
  /-- Where all definitions are in one package, no package is imported. -/
  single : env.options.oneFile = true ∨ (∃ p, env.options.package = some p ∧ p ≠ "") →
    ∀ item ∈ readImports imports, item ∈ libraryImports.map (·.2)

/-- There is nothing foreign in a single package. -/
theorem Site.Foreign.not_single {site : Site} {scope : Namespace} (h : site.Foreign scope) :
    ¬(site.options.oneFile = true ∨ ∃ p, site.options.package = some p ∧ p ≠ "") := by
  rintro (hfile | ⟨p, hp, hne⟩)
  · rw [h.severalFiles] at hfile
    cases hfile
  · have hchosen := h.severalPackages
    rw [chosenPackage?, hp] at hchosen
    simp [hne] at hchosen

/-- A file name with a line break is in no statement. -/
theorem root_not_mem_readImports {env : Env} (h : '\n' ∈ env.schema.fileName.toList) {text : String} :
    packageImport env {} ∉ readImports text := by
  intro hread
  have hnoBreak := noBreak_of_mem_importsOf Path.splitOn_not_mem hread
  exact hnoBreak (by simp [packageImport, packageAlias, Namespace.isRoot, h])

/-- Imports that fit state all that the definitions ask for. -/
theorem ImportsFit.reads {env : Env} {es : List Emission} {imports body : String} (h : ImportsFit env es imports body)
    {e : Emission} (he : e ∈ es) : ∀ item ∈ Code.imports e.code, item ∈ readImports imports := by
  intro item hitem
  obtain ⟨t, hsound, _, hcode, hpackages⟩ := h.packages e he
  rw [hcode, imports_gap, t.mem_imports_code] at hitem
  rcases hitem with hrequired | ⟨scope, name, hname, hforeign, rfl⟩
  · exact h.libraries e he (hsound.required hrequired)
  · exact hpackages scope name hname hforeign

section

variable {o : Options} {s : Schema} {r : FileRun}

/-- The imports of a file are read back, unless the root is among them and its name has a line break. -/
theorem mem_importText (hvalid : s.validate = .ok ()) (h : (target o).Wrote ((target o).env s o) r)
    (hroot : '\n' ∈ s.fileName.toList → ∀ e ∈ r.emissions, packageImport ((target o).env s o) {} ∉ Code.imports e.code)
    {item : String} : item ∈ readImports (importText r) ↔ ∃ e ∈ r.emissions, item ∈ Code.imports e.code := by
  rw [importText, mem_readImports, mem_imports_stateAfter]
  intro item hitem
  obtain ⟨e, he, hitem⟩ := mem_imports_stateAfter.1 hitem
  obtain ⟨name, _, horigin⟩ := exists_origin h he hitem
  exact (horigin.statable hvalid fun heq hbreak => hroot hbreak e he (heq ▸ hitem)).2

/-- The imports of a file fit its body, unless the file name of the schema breaks the line of an import that is asked for. -/
theorem importsFit (hvalid : s.validate = .ok ()) (h : (target o).Wrote ((target o).env s o) r)
    (hroot : '\n' ∈ s.fileName.toList → ∀ e ∈ r.emissions, packageImport ((target o).env s o) {} ∉ Code.imports e.code) :
    ImportsFit ((target o).env s o) r.emissions (importText r) (bodyText r) := by
  have hread : ∀ {item}, item ∈ readImports (importText r) ↔ ∃ e ∈ r.emissions, item ∈ Code.imports e.code :=
    mem_importText hvalid h hroot
  constructor
  · intro item hitem
    obtain ⟨e, he, hitem⟩ := hread.1 hitem
    obtain ⟨name, ⟨p, hp, hword⟩, horigin⟩ := exists_origin h he hitem
    have hname := (horigin.statable hvalid fun heq hbreak => hroot hbreak e he (heq ▸ hitem)).1
    -- a line with the name is in the text, since no step replaces anything in it
    have hkeyless : Balanced Step.Keyless (r.emissions.flatMap (·.code)) := by
      refine .flatMap fun e he => ?_
      obtain ⟨t, _, hcode, _⟩ := emission_template h he
      rw [hcode]
      exact .append inferInstance (t.keyless_code _)
    have hmem : .line p ∈ r.emissions.flatMap (·.code) := List.mem_flatMap.2 ⟨e, he, hp⟩
    exact ⟨e, he, name, horigin,
      Writer.infix_run (unbroken_dotted hname) rfl (hkeyless.mem trivial trivial) hmem hword⟩
  · intro e he
    obtain ⟨t, hsound, hcode, hall⟩ := emission_template h he
    refine ⟨t, hsound, hall, hcode, fun scope name hname hforeign => hread.2 ⟨e, he, ?_⟩⟩
    rw [hcode, imports_gap, t.mem_imports_code]
    exact .inr ⟨scope, name, hname, hforeign, rfl⟩
  · intro e he item hitem
    obtain ⟨t, _, hcode, hall⟩ := emission_template h he
    obtain ⟨name, _, huses⟩ := uses_libraries hitem
    refine hread.2 ⟨e, he, List.mem_flatMap.2 ⟨.require item, ?_, List.mem_cons_self⟩⟩
    rw [hcode]
    exact List.mem_append_right _ (huses _ _ (hall _)).required
  · intro hsingle item hitem
    obtain ⟨e, he, hitem⟩ := hread.1 hitem
    obtain ⟨name, _, horigin⟩ := exists_origin h he hitem
    cases horigin with
    | library hmem => exact List.mem_map.2 ⟨_, hmem, rfl⟩
    | package scope _ hforeign _ _ => exact absurd hsingle hforeign.not_single

/-- The imports of a file fit unless the package of the root is imported and its name has a line break. -/
theorem importsFit_iff (hvalid : s.validate = .ok ()) (h : (target o).Wrote ((target o).env s o) r) :
    ImportsFit ((target o).env s o) r.emissions (importText r) (bodyText r) ↔
      ('\n' ∈ s.fileName.toList → ∀ e ∈ r.emissions, packageImport ((target o).env s o) {} ∉ Code.imports e.code) := by
  constructor
  · intro hfit hbreak e he hitem
    exact root_not_mem_readImports hbreak (hfit.reads he _ hitem)
  · exact importsFit hvalid h

end

/-- Whether some definition asks for the package of the root. -/
def asksForRoot (env : Env) : Bool :=
  env.schema.definitions.any fun d =>
    match definitionCode ⟨env, d.scope⟩ d with
    | .ok c => c.imports.contains (packageImport env {})
    | .error _ => false

/-- If some definition asks for the package of the root namespace, some file has its import. -/
theorem exists_asking {o : Options} {env : Env} {runs : List FileRun} (hgroups : runs.map (·.group) = (target o).groups env)
    (hruns : ∀ r ∈ runs, (target o).Wrote env r) (h : asksForRoot env = true) :
    ∃ r ∈ runs, ∃ e ∈ r.emissions, packageImport env {} ∈ e.code.imports := by
  obtain ⟨d, hd, hasks⟩ := List.any_eq_true.1 h
  obtain ⟨e, he, rfl⟩ := List.mem_map.1 ((Target.emissions_perm hgroups hruns).mem_iff.2 hd)
  obtain ⟨r, hr, he⟩ := List.mem_flatMap.1 he
  obtain ⟨t, _, hcode, hall⟩ := emission_template (hruns r hr) he
  rw [hall, List.contains_iff_mem] at hasks
  refine ⟨r, hr, e, he, ?_⟩
  rw [hcode, imports_gap]
  exact hasks

end FlatSchema.Go

namespace FlatSchema

open Go

/-- The files of a schema as they are written. -/
theorem Schema.ofDocument_goFiles {doc : SchemaDoc} {s : Schema} (h : Schema.ofDocument doc = .ok s) (o : Options) :
    s.validate = .ok () ∧ ∃ runs : List FileRun, (Go.target o).render s o = .ok (runs.map (·.file)) ∧
      runs.map (·.group) = (Go.target o).groups ((Go.target o).env s o) ∧
      ∀ r ∈ runs, (Go.target o).Wrote ((Go.target o).env s o) r := by
  obtain ⟨names, declared, hloaded⟩ := Schema.ofDocument_loaded h
  obtain ⟨files, hfiles, _⟩ := (Language.go.target_total o hloaded.closed).renders hloaded.valid
  obtain ⟨_, runs, hgroups, hruns, rfl⟩ := Target.render_eq_ok_iff.1 hfiles
  exact ⟨hloaded.valid, runs, hfiles.trans (congrArg _ (List.append_nil _)), hgroups, hruns⟩

/-- In every Go file the imports fit the body: nothing is imported that the body does not use, and every name behind the name of a
package has its import. The one exception is a file that imports the package of the root, when the file name of the schema, by which
that package goes, has a line break. -/
theorem Schema.ofDocument_importsFit_iff {doc : SchemaDoc} {s : Schema} (h : Schema.ofDocument doc = .ok s) (options : Options) :
    let env := (Go.target options).env s options
    ∃ runs : List FileRun, (Go.target options).render s options = .ok (runs.map (·.file)) ∧
      runs.map (·.group) = (Go.target options).groups env ∧
      ∀ r ∈ runs, (Go.target options).Wrote env r ∧ ∃ imports,
        r.file.contents = Writer.render "\t" (packageClause env r.group.scope) ++ imports ++ bodyText r ∧
        (ImportsFit env r.emissions imports (bodyText r) ↔
          ('\n' ∈ s.fileName.toList → ∀ e ∈ r.emissions, packageImport env {} ∉ e.code.imports)) := by
  intro env
  obtain ⟨hvalid, runs, hfiles, hgroups, hruns⟩ := Schema.ofDocument_goFiles h options
  refine ⟨runs, hfiles, hgroups, fun r hr => ⟨hruns r hr, importText r, contents_eq (hruns r hr), ?_⟩⟩
  exact importsFit_iff hvalid (hruns r hr)

/-- A union of a namespace whose variant is a table of the root, in a schema of some file name. -/
def acrossDoc (fileName : String) : SchemaDoc where
  fileName := fileName
  enums := [{ name := "U", scope := "N", isUnion := true, values := [{ name := "R" }] }]
  structs := [{ name := "R", fields := [{ name := "k", type := "string", key := true }] }]

/-- What is read when the schema is written with objects. -/
def acrossEnv (s : Schema) : Env := (Go.target { objectApi := true }).env s { objectApi := true }

/-- With an ordinary file name the file of the union imports the package of the root, and the imports fit. -/
theorem acrossDoc_importsFit : ∃ (s : Schema) (runs : List FileRun), Schema.ofDocument (acrossDoc "f") = .ok s ∧
    (Go.target { objectApi := true }).render s { objectApi := true } = .ok (runs.map (·.file)) ∧
    (∃ r ∈ runs, ∃ e ∈ r.emissions, packageImport (acrossEnv s) {} ∈ e.code.imports) ∧
    ∀ r ∈ runs, ∃ imports,
      r.file.contents = Writer.render "\t" (packageClause (acrossEnv s) r.group.scope) ++ imports ++ bodyText r ∧
      ImportsFit (acrossEnv s) r.emissions imports (bodyText r) := by
  obtain ⟨s, hs, hseen⟩ := Schema.exists_ofDocument (acrossDoc "f") (fun s => (s.fileName, asksForRoot (acrossEnv s))) ("f", true)
    (by decide +kernel)
  obtain ⟨hfile, hasks⟩ := Prod.mk.inj hseen
  obtain ⟨runs, hfiles, hgroups, hruns⟩ := Schema.ofDocument_importsFit_iff hs { objectApi := true }
  refine ⟨s, runs, hs, hfiles, exists_asking hgroups (fun r hr => (hruns r hr).1) hasks, fun r hr => ?_⟩
  obtain ⟨_, imports, hcontents, hfit⟩ := hruns r hr
  refine ⟨imports, hcontents, hfit.2 fun hbreak => ?_⟩
  simp [hfile] at hbreak

/-- A file name in two lines: the file of the union uses the package of the root and does not import it. -/
theorem acrossDoc_broken : ∃ (s : Schema) (runs : List FileRun), Schema.ofDocument (acrossDoc "a\nb") = .ok s ∧
    (Go.target { objectApi := true }).render s { objectApi := true } = .ok (runs.map (·.file)) ∧
    ∃ r ∈ runs, r.file.contents = Writer.render "\t" (packageClause (acrossEnv s) r.group.scope) ++ importText r ++ bodyText r ∧
      (∃ e ∈ r.emissions, packageImport (acrossEnv s) {} ∈ e.code.imports) ∧
      packageImport (acrossEnv s) {} ∉ readImports (importText r) ∧
      ¬ImportsFit (acrossEnv s) r.emissions (importText r) (bodyText r) := by
  obtain ⟨s, hs, hseen⟩ := Schema.exists_ofDocument (acrossDoc "a\nb") (fun s => (s.fileName, asksForRoot (acrossEnv s)))
    ("a\nb", true) (by decide +kernel)
  obtain ⟨hfile, hasks⟩ := Prod.mk.inj hseen
  obtain ⟨hvalid, runs, hfiles, hgroups, hruns⟩ := Schema.ofDocument_goFiles hs { objectApi := true }
  obtain ⟨r, hr, e, he, hitem⟩ := exists_asking hgroups hruns hasks
  have hbreak : '\n' ∈ s.fileName.toList := by simp [hfile]
  refine ⟨s, runs, hs, hfiles, r, hr, contents_eq (hruns r hr), ⟨e, he, hitem⟩, root_not_mem_readImports hbreak, ?_⟩
  exact fun hfit => (importsFit_iff hvalid (hruns r hr)).1 hfit hbreak e he hitem

end FlatSchema

import FlatSchema.Proofs.NameChars
import FlatSchema.Proofs.Shape.Go
import Mathlib.Data.List.Infix

/-!
# What Go code mentions

The code of a definition asks for the package of every name that it takes from elsewhere, and for no other package
(`Template.mem_imports_code`), and the name of that package stands in the line (`infix_spell`). It asks for the libraries that its
kind of definition needs, and uses them (`uses_libraries`).
-/

namespace FlatSchema.Code

/-! ## Words of code -/

/-- Some line of the code has a word. -/
def Says (word : String) (c : Code) : Prop := ∃ p, .line p ∈ c ∧ word.toList <:+: p.text.toList

namespace Says

variable {word : String} {a b c : Code} {p head : Phrase}

/-- A word in the front of a text is in the text. -/
theorem infix_left {s : String} (h : word.toList <:+: s.toList) (t : String) : word.toList <:+: (s ++ t).toList := by
  rw [String.toList_append]
  exact h.trans (List.prefix_append _ _).isInfix

/-- A word in the rest of a text is in the text. -/
theorem infix_right (s : String) {t : String} (h : word.toList <:+: t.toList) : word.toList <:+: (s ++ t).toList := by
  rw [String.toList_append]
  exact h.trans (List.suffix_append _ _).isInfix

theorem line (h : word.toList <:+: p.text.toList) : Says word (line p) := ⟨p, List.mem_cons_self, h⟩

/-- Code says what its front does. -/
theorem left (h : Says word a) (b : Code) : Says word (a ++ b) := by
  obtain ⟨p, hp, hword⟩ := h
  exact ⟨p, List.mem_append_left b hp, hword⟩

/-- Code says what its rest does. -/
theorem right (a : Code) (h : Says word b) : Says word (a ++ b) := by
  obtain ⟨p, hp, hword⟩ := h
  exact ⟨p, List.mem_append_right a hp, hword⟩

/-- Blanks in front hide nothing. -/
theorem inset (blanks : String) (h : Says word c) : Says word (inset blanks c) := by
  obtain ⟨p, hp, hword⟩ := h
  exact ⟨blanks ++ p, List.mem_map.2 ⟨_, hp, rfl⟩, infix_right blanks hword⟩

theorem nested (head : Phrase) (h : Says word c) : Says word (nested head c) :=
  .right _ (.right [.indent] (h.left [.dedent]))

theorem braced (head : Phrase) (h : Says word c) : Says word (braced head c) := (h.nested _).left _

theorem braced_head (h : word.toList <:+: head.text.toList) (c : Code) : Says word (Code.braced head c) := by
  have hhead : Says word (Code.line (head ++ " \x7b")) := .line (infix_left h _)
  exact (hhead.left _).left _

end Says

end FlatSchema.Code

namespace FlatSchema.Go

open Code

/-! ## The packages of names -/

/-- The name under which the package of a namespace is imported. -/
def packageAlias (env : Env) (scope : Namespace) : String :=
  if scope.isRoot then env.schema.fileName else env.namer.scope scope

/-- The place of the package of a namespace. -/
def importPath (env : Env) (scope : Namespace) : String :=
  if scope.isRoot then env.schema.fileName else scope.join "/"

/-- The import of the package of a namespace. -/
def packageImport (env : Env) (scope : Namespace) : String := packageAlias env scope ++ " \"" ++ importPath env scope ++ "\""

/-- A namespace whose names stand behind the name of their package at a site. -/
structure Site.Foreign (site : Site) (scope : Namespace) : Prop where
  severalFiles : site.options.oneFile = false
  severalPackages : chosenPackage? site.options = none
  elsewhere : scope ≠ site.here

namespace Site

variable {site : Site} {scope : Namespace}

/-- A name of another package is written with the alias of the package, and asks for its import. -/
theorem qualify_of_foreign (h : site.Foreign scope) (name : String) : site.qualify scope name =
    { text := packageAlias site.toEnv scope ++ "." ++ name, imports := [packageImport site.toEnv scope] } := by
  unfold qualify packageImport packageAlias importPath
  rw [h.severalFiles, h.severalPackages, decide_eq_false h.elsewhere]
  cases scope.isRoot <;> rfl

/-- A name of the same package is written as it is. -/
theorem qualify_of_not_foreign (h : ¬site.Foreign scope) (name : String) : site.qualify scope name = name := by
  unfold qualify
  refine if_pos ?_
  by_contra hcondition
  simp only [Bool.or_eq_true, Option.isSome_iff_ne_none, decide_eq_true_eq, not_or, Decidable.not_not, Bool.not_eq_true]
    at hcondition
  exact h ⟨hcondition.1.1, hcondition.1.2, hcondition.2⟩

end Site

/-- Words ask for the imports of the names from other packages. -/
theorem mem_imports_spell {site : Site} {item : String} {ws : List Word} : item ∈ (spell site ws).imports ↔
    ∃ scope name, Word.ref scope name ∈ ws ∧ site.Foreign scope ∧ item = packageImport site.toEnv scope := by
  induction ws with
  | nil => simp [spell]
  | cons w ws ih =>
    rw [spell, Phrase.imports_append, List.mem_append, ih]
    have hword : item ∈ (w.phrase site).imports ↔
        ∃ scope name, Word.ref scope name = w ∧ site.Foreign scope ∧ item = packageImport site.toEnv scope := by
      cases w with
      | text | blanks => simp [Word.phrase]
      | ref scope name =>
        by_cases h : site.Foreign scope
        · simp [Word.phrase, Site.qualify_of_foreign h, h]
        · simp [Word.phrase, Site.qualify_of_not_foreign h, h]
    rw [hword]
    simp only [List.mem_cons, or_and_right, exists_or]

/-- A name of another package brings the name of the package into the line. -/
theorem infix_spell {site : Site} {scope : Namespace} {name : String} {ws : List Word} (h : Word.ref scope name ∈ ws)
    (hforeign : site.Foreign scope) : (packageAlias site.toEnv scope ++ ".").toList <:+: (spell site ws).text.toList := by
  obtain ⟨before, after, rfl⟩ := List.append_of_mem h
  refine ⟨(spell site before).text.toList, name.toList ++ (spell site after).text.toList, ?_⟩
  rw [spell_append, spell, Word.phrase, Site.qualify_of_foreign hforeign]
  simp

namespace Template

/-- A name that is left open in a template. -/
def Mentions (t : Template) (scope : Namespace) (name : String) : Prop := ∃ ws ∈ t.lines, Word.ref scope name ∈ ws

variable {site : Site}

/-- A template asks for the imports it requires and for those of the names from other packages. -/
theorem mem_imports_code {item : String} (t : Template) : item ∈ Code.imports (t.code site) ↔ item ∈ t.required ∨
    ∃ scope name, t.Mentions scope name ∧ site.Foreign scope ∧ item = packageImport site.toEnv scope := by
  induction t with
  | empty | comment | require => simp [code, Code.imports, Code.comment, Code.require, Step.imports, required, Mentions, lines]
  | line ws =>
    have hline : Code.imports ((line ws).code site) = (spell site ws).imports := List.append_nil _
    rw [hline, mem_imports_spell]
    simp [required, Mentions, lines]
  | seq a b iha ihb =>
    have hseq : Code.imports ((seq a b).code site) = Code.imports (a.code site) ++ Code.imports (b.code site) :=
      List.flatMap_append
    rw [hseq, List.mem_append, iha, ihb]
    simp only [required, Mentions, lines, List.mem_append, or_and_right, exists_or]
    exact or_or_or_comm
  | indented t ih =>
    have hindented : Code.imports ((indented t).code site) = Code.imports (t.code site) := by
      simp [code, Code.indented, Code.imports, Step.imports]
    rw [hindented, ih]
    rfl

/-- The lines of a template are lines of its code. -/
theorem line_mem_code {ws : List Word} {t : Template} (h : ws ∈ t.lines) : .line (spell site ws) ∈ t.code site := by
  induction t with
  | empty | comment | require => exact absurd h List.not_mem_nil
  | line =>
    rw [List.mem_singleton.1 h]
    exact List.mem_cons_self
  | seq a b iha ihb => exact List.mem_append.2 ((List.mem_append.1 h).imp iha ihb)
  | indented t ih => exact List.mem_cons_of_mem _ (List.mem_append_left _ (ih h))

end Template

/-- The name and the place of a package have no line break, unless it is that of the root and the schema's file name has one. -/
theorem noBreak_package {o : Options} {s : Schema} {scope : Namespace} (hscope : scope.Named)
    (hroot : scope.isRoot = true → '\n' ∉ s.fileName.toList) :
    '\n' ∉ (packageAlias ((target o).env s o) scope).toList ∧ '\n' ∉ (importPath ((target o).env s o) scope).toList := by
  have hcomponents : ∀ p ∈ scope.components, ∀ c ∈ p.toList, c ≠ '\n' := by
    rintro p hp c hc rfl
    exact not_mem_of_isIdentifier (hscope p hp) (by decide) hc
  unfold packageAlias importPath
  cases hscope : scope.isRoot with
  | true => exact ⟨hroot hscope, hroot hscope⟩
  | false =>
    have hkind : CharKind (· ≠ '\n') := .ne (by decide) (by decide)
    have halias : ∀ c ∈ ((namer o).scope scope).toList, c ≠ '\n' := by
      refine Namespace.forall_mem_intercalate (by simp [namer]) fun p hp => ?_
      obtain ⟨q, hq, rfl⟩ := List.mem_map.1 hp
      exact hkind.mem_format (by simp [namer]) (by simp [namer]) _ (hcomponents q hq)
    have hpath : ∀ c ∈ (scope.join "/").toList, c ≠ '\n' := Namespace.forall_mem_intercalate (by simp) hcomponents
    exact ⟨fun h => halias _ h rfl, fun h => hpath _ h rfl⟩

/-! ## The libraries -/

/-- The libraries that Go code may use: the name under which each is imported, and its import. -/
def libraryImports : List (String × String) :=
  [("strconv", strconvImport), ("bytes", bytesImport), ("flatbuffers", runtimeImport)]

theorem says_clause {word : String} (head : Phrase) {c : Code} (h : Says word c) : Says word (clause head c) :=
  ((h.inset _).right _).left _

variable {site : Site} {i : Nat} {d : StructDef} {e : EnumDef} {f : FieldDef}

/-- A library is required and used. -/
structure Uses (library : String × String) (c : Code) : Prop where
  required : .require library.2 ∈ c
  said : Says (library.1 ++ ".") c

theorem Uses.left {library : String × String} {a : Code} (h : Uses library a) (b : Code) : Uses library (a ++ b) :=
  ⟨List.mem_append_left b h.required, h.said.left b⟩

theorem Uses.right {library : String × String} (a : Code) {b : Code} (h : Uses library b) : Uses library (a ++ b) :=
  ⟨List.mem_append_right a h.required, h.said.right a⟩

/-- The type of an enum names the library that it imports for printing numbers. -/
theorem uses_enumType : Uses ("strconv", strconvImport) (enumType site e) := by
  constructor
  · simp [enumType, require]
  · refine .right _ (.braced _ (.right _ (.line ?_)))
    exact Says.infix_right _ (by decide)

/-- The object of a union names the runtime. -/
theorem uses_unionObject : Gives (Uses ("flatbuffers", runtimeImport)) (unionObject site e) := by
  unfold unionObject
  refine .after fun packed => .after fun unpacked => .ok ⟨?_, ?_⟩
  · simp [require]
  · refine .right _ (.braced_head ?_ _)
    refine Says.infix_left (Says.infix_right _ ?_) _
    decide

/-- The reader of an object names the runtime. -/
theorem says_readerType : Says "flatbuffers." (readerType site d) := by
  unfold readerType
  refine .left (says_clause _ (.line ?_)) _
  exact Says.infix_left (by decide) _

/-- So does all that reads a struct. -/
theorem says_structReader : Gives (Says "flatbuffers.") (structReader site d) := by
  unfold structReader
  exact .after fun fields => .ok ((says_readerType.left _).left _)

/-- So does all that reads a table. -/
theorem says_tableReader : Gives (Says "flatbuffers.") (tableReader site i d) := by
  unfold tableReader
  cases d.keyField? with
  | none => exact .after fun fields => .ok ((((says_readerType.left _).left _).left _).left _)
  | some key => exact .after fun fields => .after fun search => .ok ((((says_readerType.left _).left _).left _).left _)

/-- Looking up a string key names the library that compares bytes. -/
theorem uses_lookupByKey (h : f.type.isString = true) : Gives (Uses ("bytes", bytesImport)) (lookupByKey site d f) := by
  have horder : Says "bytes." (keyOrder site f) := by
    unfold keyOrder
    rw [if_pos h]
    exact .line (Says.infix_left (Says.infix_left (by decide) _) _)
  unfold lookupByKey
  refine .after fun keyType => .ok ⟨?_, ?_⟩
  · simp [braced, block, nested, indented, when, h, require]
  · exact .braced _ (((((horder.right _).left _).braced _).right _).left _)

/-- A table with a string key names the library that compares bytes. -/
theorem uses_tableReader (h : d.keyField?.any (·.type.isString) = true) :
    Gives (Uses ("bytes", bytesImport)) (tableReader site i d) := by
  unfold tableReader
  cases hkey : d.keyField? with
  | none =>
    rw [hkey] at h
    cases h
  | some key =>
    rw [hkey, Option.any_some] at h
    exact .after fun fields => (uses_lookupByKey h).bind fun search hsearch => .ok ((hsearch.right _).right _)

/-- The code of a definition requires its libraries and uses them. -/
theorem uses_libraries {env : Env} {x : Definition} {item : String} (h : item ∈ libraries env x) :
    ∃ name, (name, item) ∈ libraryImports ∧ ∀ here, Gives (Uses (name, item)) (definitionCode ⟨env, here⟩ x) := by
  cases x with
  | enum i e =>
    rcases List.mem_cons.1 h with rfl | h
    · refine ⟨"strconv", by simp [libraryImports], fun here => ?_⟩
      show Gives _ (enumCode ⟨env, here⟩ e)
      unfold enumCode
      exact .ite_after fun object => .ok ((uses_enumType.right _).left _)
    · split at h
      next hunion =>
        obtain rfl := List.mem_singleton.1 h
        refine ⟨"flatbuffers", by simp [libraryImports], fun here => ?_⟩
        show Gives _ (enumCode ⟨env, here⟩ e)
        unfold enumCode
        rw [if_pos hunion]
        exact uses_unionObject.bind fun object hobject => .ok (hobject.right _)
      next => exact absurd h List.not_mem_nil
  | struct i d =>
    rcases List.mem_cons.1 h with rfl | h
    · refine ⟨"flatbuffers", by simp [libraryImports], fun here => ?_⟩
      have hused : ∀ object reader builder, Says "flatbuffers." reader →
          Uses ("flatbuffers", runtimeImport) (require runtimeImport ++ docs d.doc ++ object ++ reader ++ builder) :=
        fun _ _ _ hreader => ⟨by simp [require], (hreader.right _).left _⟩
      refine .ite ?_ ?_
      · unfold structCode
        exact .ite_after fun object => says_structReader.bind fun reader h => .after fun builder => .ok (hused _ _ _ h)
      · unfold tableCode
        exact .ite_after fun object => says_tableReader.bind fun reader h => .after fun builder => .ok (hused _ _ _ h)
    · split at h
      next hkey =>
        rw [Bool.and_eq_true, Bool.not_eq_true'] at hkey
        obtain rfl := List.mem_singleton.1 h
        refine ⟨"bytes", by simp [libraryImports], fun here => ?_⟩
        simp only [definitionCode, hkey.1, Bool.false_eq_true, if_false]
        unfold tableCode
        refine .ite_after fun object => (uses_tableReader hkey.2).bind fun reader hreader => .after fun builder => ?_
        exact .ok ((hreader.right _).left _)
      next => exact absurd h List.not_mem_nil

end FlatSchema.Go

import FlatSchema.Proofs.JsonSchemaReferences
import FlatSchema.Target.LuaModule

/-!
# Flat names

A definition is also known by a name without dots: the key of its JSON Schema, the local variable of its Lua module, the name of its
Go package. Underscores stand between the components there, but components may have underscores of their own. So what a flat name
still tells is the words that underscores part it into (`wordsOf`), and definitions are told apart by their flat names exactly if
they are by their words (`Schema.ofDocument_flatNames`).
-/

namespace FlatSchema

/-! ## Words -/

/-- The words of some texts, cut at their underscores, with a number of empty words between those of two texts. -/
def wordsOf (gap : Nat) (parts : List String) : List (List Char) :=
  (List.replicate gap []).intercalate (parts.map fun p => p.toList.splitOn '_')

/-- Underscores between two texts leave empty words between theirs. -/
theorem splitOn_underscores (gap : Nat) (s t : List Char) :
    (s ++ (List.replicate (gap + 1) '_' ++ t)).splitOn '_' = s.splitOn '_' ++ (List.replicate gap [] ++ t.splitOn '_') := by
  induction gap generalizing s with
  | zero => exact List.splitOn_append_cons_self s t
  | succ gap ih =>
    have hnil := ih []
    rw [List.nil_append, List.splitOn_nil] at hnil
    rw [List.replicate_succ, List.cons_append, List.splitOn_append_cons_self, hnil]
    rfl

/-- Texts with underscores between them have the words of these texts. -/
theorem splitOn_join {gap : Nat} {separator : String} (hseparator : separator.toList = List.replicate (gap + 1) '_')
    {parts : List String} (hne : parts ≠ []) : (separator.intercalate parts).toList.splitOn '_' = wordsOf gap parts := by
  induction parts with
  | nil => exact absurd rfl hne
  | cons p rest ih =>
    cases rest with
    | nil => simp [wordsOf]
    | cons q rest =>
      have hrest := ih (List.cons_ne_nil q rest)
      rw [String.intercalate_cons_cons, String.toList_append, String.toList_append, List.append_assoc, hseparator,
        splitOn_underscores, hrest]
      simp [wordsOf]

/-- Joined texts are the same exactly if they have the same words. -/
theorem join_eq_iff {gap : Nat} {separator : String} (hseparator : separator.toList = List.replicate (gap + 1) '_')
    {parts parts' : List String} (hne : parts ≠ []) (hne' : parts' ≠ []) :
    separator.intercalate parts = separator.intercalate parts' ↔ wordsOf gap parts = wordsOf gap parts' := by
  rw [← splitOn_join hseparator hne, ← splitOn_join hseparator hne']
  constructor
  · intro h
    rw [h]
  · intro h
    have hjoin := congrArg (['_'].intercalate ·) h
    simpa only [List.intercalate_splitOn, String.toList_inj] using hjoin

/-- The words of a text that are not empty. -/
def fullWords (p : String) : List (List Char) := (p.toList.splitOn '_').filter fun w => !w.isEmpty

/-- A part without underscores is one word. -/
theorem fullWords_of_not_mem {p : String} (h : '_' ∉ p.toList) (hne : p.toList ≠ []) : fullWords p = [p.toList] := by
  rw [fullWords, List.splitOn_eq_singleton h]
  simpa using hne

/-- The words that are not empty are those of the parts. -/
theorem filter_wordsOf (gap : Nat) (parts : List String) :
    (wordsOf gap parts).filter (fun w => !w.isEmpty) = parts.flatMap fullWords := by
  induction parts with
  | nil => rfl
  | cons p rest ih =>
    unfold wordsOf at ih ⊢
    cases rest with
    | nil => simp [fullWords]
    | cons q rest =>
      rw [List.map_cons] at ih
      rw [List.map_cons, List.map_cons, List.intercalate_cons_cons, List.filter_append, List.filter_append, ih]
      simp [fullWords]

/-- Texts are told by their words if each of them has one word that is not empty. -/
theorem eq_of_wordsOf_eq {gap : Nat} {f : String → String} {parts parts' : List String}
    (h : ∀ p ∈ parts, fullWords (f p) = [p.toList]) (h' : ∀ p ∈ parts', fullWords (f p) = [p.toList])
    (heq : wordsOf gap (parts.map f) = wordsOf gap (parts'.map f)) : parts = parts' := by
  have hwords : ∀ {parts : List String}, (∀ p ∈ parts, fullWords (f p) = [p.toList]) →
      (wordsOf gap (parts.map f)).filter (fun w => !w.isEmpty) = parts.map String.toList := by
    intro parts h
    rw [filter_wordsOf, List.flatMap_map, List.flatMap_congr h]
    exact List.flatMap_pure_eq_map _ _
  have hmap : parts.map String.toList = parts'.map String.toList := by
    rw [← hwords h, ← hwords h', heq]
  exact (List.map_inj_right fun _ _ => String.toList_inj.1).1 hmap

/-! ## Flat names -/

/-- The local variable for the module of a definition in another module. -/
def Lua.moduleLocal (scope : Namespace) (name : String) : String :=
  "__" ++ (scope.qualify name ".").map fun c => if c = '.' then '_' else c

/-- The module of another struct or table is known by its local variable. -/
theorem Lua.localName_eq {env : Env} {owner i : Nat} {t : TypeDesc} {d : StructDef} (hi : t.structRef = some i) (hne : i ≠ owner)
    (hd : env.schema.structs[i]? = some d) :
    ∃ phrase, Lua.localName env owner t = .ok phrase ∧ phrase.text = Lua.moduleLocal d.scope d.name ∧
      phrase.imports = [s!"local {Lua.moduleLocal d.scope d.name} = require('{d.qualifiedName}')"] := by
  have hstruct : env.structOf t = .ok d := Env.structOf_eq_ok.2 (Schema.structOf?_eq_some.2 ⟨i, hi, hd⟩)
  have hother : t.structRef ≠ some owner := by
    rw [hi]
    exact fun h => hne (Option.some.inj h)
  refine ⟨_, bind_eq_ok.2 ⟨d, hstruct, if_neg hother⟩, rfl, rfl⟩

/-- Underscores in place of the dots between texts. -/
theorem map_intercalate_dots {parts : List String} (h : ∀ p ∈ parts, '.' ∉ p.toList) :
    (".".intercalate parts).toList.map (fun c => if c = '.' then '_' else c) = ("_".intercalate parts).toList := by
  induction parts with
  | nil => rfl
  | cons p rest ih =>
    have hrest := ih fun q hq => h q (List.mem_cons_of_mem p hq)
    have hp : p.toList.map (fun c => if c = '.' then '_' else c) = p.toList := by
      refine (List.map_congr_left fun c hc => if_neg ?_).trans (List.map_id' _)
      rintro rfl
      exact h p List.mem_cons_self hc
    cases rest with
    | nil => rw [String.intercalate_singleton, String.intercalate_singleton, hp]
    | cons q rest =>
      simp only [String.intercalate_cons_cons, String.toList_append, List.map_append, hp, hrest]
      rfl

/-- The local name of a module is the qualified name with underscores. -/
theorem Lua.moduleLocal_eq {scope : Namespace} {name : String} (hscope : scope.Named) (hname : isIdentifier name = true) :
    Lua.moduleLocal scope name = "__" ++ scope.qualify name "_" := by
  have hmap := map_intercalate_dots (hscope.not_mem_qualified hname (c := '.') (by decide))
  rw [Lua.moduleLocal, Namespace.qualify_eq, Namespace.qualify_eq, ← String.toList_inj, String.toList_append,
    String.toList_append, String.toList_map, hmap]

/-- The name of a package is its escaped components with two underscores between them. -/
theorem Go.scope_eq (o : Options) (scope : Namespace) :
    (Go.namer o).scope scope = "__".intercalate (scope.components.map (Go.namer o).escape) := by
  have hcomponent : ∀ c, (Go.namer o).component c = (Go.namer o).escape c := by
    intro c
    show (Go.namer o).escape (Case.keep.apply c) = _
    rw [Case.keep_apply]
  show "__".intercalate (scope.components.map (Go.namer o).component) = _
  rw [List.map_congr_left fun c _ => hcomponent c]

/-! ## Definitions told apart -/

/-- The definitions of a schema differ in what is made of their namespaces and names. -/
def Schema.TellsApart {α : Type} (s : Schema) (f : Namespace → String → α) : Prop :=
  ∀ r r' scope scope' name name', s.nameAt? r = some (scope, name) → s.nameAt? r' = some (scope', name') →
    f scope name = f scope' name' → r = r'

/-- Two ways of naming that agree on which definitions get one name tell the same definitions apart. -/
theorem Schema.tellsApart_congr {α β : Type} {s : Schema} {f : Namespace → String → α} {g : Namespace → String → β}
    (h : ∀ r r' scope scope' name name', s.nameAt? r = some (scope, name) → s.nameAt? r' = some (scope', name') →
      (f scope name = f scope' name' ↔ g scope name = g scope' name')) : s.TellsApart f ↔ s.TellsApart g := by
  constructor
  · intro happart r r' scope scope' name name' hr hr' heq
    exact happart r r' scope scope' name name' hr hr' ((h r r' scope scope' name name' hr hr').2 heq)
  · intro happart r r' scope scope' name name' hr hr' heq
    exact happart r r' scope scope' name name' hr hr' ((h r r' scope scope' name name' hr hr').1 heq)

/-- The namespaces of a schema's definitions, the root apart, differ in what is made of them. -/
def Schema.TellsScopesApart {α : Type} (s : Schema) (f : Namespace → α) : Prop :=
  ∀ r r' scope scope' name name', s.nameAt? r = some (scope, name) → s.nameAt? r' = some (scope', name') →
    scope.isRoot = false → scope'.isRoot = false → f scope = f scope' → scope = scope'

/-- No component of a name has an underscore. -/
def Schema.NoUnderscores (s : Schema) : Prop :=
  ∀ r scope name, s.nameAt? r = some (scope, name) → ∀ p ∈ scope.components ++ [name], '_' ∉ p.toList

/-- Two keys are equal if the words of the names are. -/
theorem JsonSchema.scopedType_eq_iff (o : Options) {scope scope' : Namespace} {name name' : String} :
    (JsonSchema.namer o).scopedType scope name = (JsonSchema.namer o).scopedType scope' name' ↔
      wordsOf 0 (scope.components ++ [name]) = wordsOf 0 (scope'.components ++ [name']) := by
  rw [JsonSchema.scopedType_eq, JsonSchema.scopedType_eq, Namespace.qualify_eq, Namespace.qualify_eq]
  exact join_eq_iff rfl (by simp) (by simp)

/-- Two local names are equal if the words of the names are. -/
theorem Lua.moduleLocal_eq_iff {scope scope' : Namespace} {name name' : String} (hscope : scope.Named)
    (hname : isIdentifier name = true) (hscope' : scope'.Named) (hname' : isIdentifier name' = true) :
    Lua.moduleLocal scope name = Lua.moduleLocal scope' name' ↔
      wordsOf 0 (scope.components ++ [name]) = wordsOf 0 (scope'.components ++ [name']) := by
  rw [Lua.moduleLocal_eq hscope hname, Lua.moduleLocal_eq hscope' hname', String.append_right_inj, Namespace.qualify_eq,
    Namespace.qualify_eq]
  exact join_eq_iff rfl (by simp) (by simp)

/-- Two packages are equal if the words of the namespaces are, with the empty ones between components. -/
theorem Go.scope_eq_iff (o : Options) {scope scope' : Namespace} (hscope : scope.isRoot = false) (hscope' : scope'.isRoot = false) :
    (Go.namer o).scope scope = (Go.namer o).scope scope' ↔
      wordsOf 1 (scope.components.map (Go.namer o).escape) = wordsOf 1 (scope'.components.map (Go.namer o).escape) := by
  have hne : ∀ {n : Namespace}, n.isRoot = false → n.components.map (Go.namer o).escape ≠ [] := by
    intro n hn hnil
    rw [Namespace.isRoot_iff.2 (List.map_eq_nil_iff.1 hnil)] at hn
    cases hn
  rw [Go.scope_eq, Go.scope_eq]
  exact join_eq_iff rfl (hne hscope) (hne hscope')

/-- A reserved word gets an empty word behind it. -/
theorem Go.fullWords_escape (o : Options) {c : String} (h : '_' ∉ c.toList) (hne : c.toList ≠ []) :
    fullWords ((Go.namer o).escape c) = [c.toList] := by
  unfold Namer.escape
  split
  · have htext : ((Go.namer o).keywordPrefix ++ c ++ (Go.namer o).keywordSuffix).toList = c.toList ++ '_' :: [] := by
      show ("" ++ c ++ "_").toList = _
      simp
    rw [fullWords, htext, List.splitOn_append_cons_self, List.splitOn_eq_singleton h, List.splitOn_nil]
    simp [hne]
  · exact fullWords_of_not_mem h hne

namespace Loaded

variable {doc : SchemaDoc} {names : NameTable} {declared : List StructDef} {s : Schema}

/-- Without underscores every part of a qualified name is one word. -/
theorem part_spec (h : Loaded doc names declared s) (hbare : s.NoUnderscores) {r : Ref} {scope : Namespace} {name : String}
    (hr : s.nameAt? r = some (scope, name)) : ∀ p ∈ scope.components ++ [name], '_' ∉ p.toList ∧ p.toList ≠ [] := by
  intro p hp
  refine ⟨hbare r scope name hr p hp, ?_⟩
  obtain ⟨hname, hscope⟩ := Schema.nameAt?_isIdentifier h.valid hr
  obtain ⟨c, rest, hchars, _⟩ := isIdentifier_chars (hscope.isIdentifier_qualified hname p hp)
  rw [hchars]
  exact List.cons_ne_nil c rest

/-- Without underscores the words of a definition are its name and the components of its namespace. -/
theorem words_tellApart (h : Loaded doc names declared s) (hbare : s.NoUnderscores) :
    s.TellsApart fun scope name => wordsOf 0 (scope.components ++ [name]) := by
  intro r r' scope scope' name name' hr hr' heq
  have hword : ∀ p : String, '_' ∉ p.toList ∧ p.toList ≠ [] → fullWords (id p) = [p.toList] :=
    fun p hp => fullWords_of_not_mem hp.1 hp.2
  have hmapped : wordsOf 0 ((scope.components ++ [name]).map id) = wordsOf 0 ((scope'.components ++ [name']).map id) := by
    rwa [List.map_id, List.map_id]
  have hparts := eq_of_wordsOf_eq (fun p hp => hword p (h.part_spec hbare hr p hp))
    (fun p hp => hword p (h.part_spec hbare hr' p hp)) hmapped
  obtain ⟨hcomponents, hlast⟩ := List.append_inj' hparts rfl
  have hscope : scope = scope' := congrArg Namespace.mk hcomponents
  rw [hscope, List.singleton_inj.1 hlast] at hr
  exact h.nameAt?_inj hr hr'

/-- Without underscores the names of packages tell the namespaces apart: escaping puts underscores at the end only. -/
theorem packages_tellApart (h : Loaded doc names declared s) (hbare : s.NoUnderscores) (o : Options) :
    s.TellsScopesApart fun scope => wordsOf 1 (scope.components.map (Go.namer o).escape) := by
  intro r r' scope scope' name name' hr hr' _ _ heq
  refine congrArg Namespace.mk (eq_of_wordsOf_eq (fun p hp => ?_) (fun p hp => ?_) heq)
  · obtain ⟨hp, hne⟩ := h.part_spec hbare hr p (List.mem_append_left _ hp)
    exact Go.fullWords_escape o hp hne
  · obtain ⟨hp, hne⟩ := h.part_spec hbare hr' p (List.mem_append_left _ hp)
    exact Go.fullWords_escape o hp hne

end Loaded

/-- The flat names of a schema's definitions are made of words: those of keys and of local variables are the words of the name and
its namespace, those of packages the words of the namespace with gaps between its components. Flat names tell definitions, and
packages tell namespaces, exactly if these words do. They do if no name has an underscore. -/
theorem Schema.ofDocument_flatNames {doc : SchemaDoc} {s : Schema} (h : Schema.ofDocument doc = .ok s) (o : Options) :
    (s.TellsApart (JsonSchema.namer o).scopedType ↔ s.TellsApart fun scope name => wordsOf 0 (scope.components ++ [name])) ∧
    (s.TellsApart Lua.moduleLocal ↔ s.TellsApart fun scope name => wordsOf 0 (scope.components ++ [name])) ∧
    (s.TellsScopesApart (Go.namer o).scope ↔
      s.TellsScopesApart fun scope => wordsOf 1 (scope.components.map (Go.namer o).escape)) ∧
    (s.NoUnderscores → s.TellsApart (JsonSchema.namer o).scopedType ∧ s.TellsApart Lua.moduleLocal ∧
      s.TellsScopesApart (Go.namer o).scope) ∧
    ∀ env : Env, env.schema = s → ∀ (owner i : Nat) (t : TypeDesc) (d : StructDef), t.structRef = some i → i ≠ owner →
      s.structs[i]? = some d → ∃ phrase, Lua.localName env owner t = .ok phrase ∧ phrase.text = Lua.moduleLocal d.scope d.name ∧
        phrase.imports = [s!"local {Lua.moduleLocal d.scope d.name} = require('{d.qualifiedName}')"] := by
  obtain ⟨names, declared, h⟩ := Schema.ofDocument_loaded h
  have hkeys : s.TellsApart (JsonSchema.namer o).scopedType ↔
      s.TellsApart fun scope name => wordsOf 0 (scope.components ++ [name]) := by
    refine Schema.tellsApart_congr fun r r' scope scope' name name' _ _ => ?_
    exact JsonSchema.scopedType_eq_iff o
  have hlocals : s.TellsApart Lua.moduleLocal ↔ s.TellsApart fun scope name => wordsOf 0 (scope.components ++ [name]) := by
    refine Schema.tellsApart_congr fun r r' scope scope' name name' hr hr' => ?_
    obtain ⟨hname, hscope⟩ := Schema.nameAt?_isIdentifier h.valid hr
    obtain ⟨hname', hscope'⟩ := Schema.nameAt?_isIdentifier h.valid hr'
    exact Lua.moduleLocal_eq_iff hscope hname hscope' hname'
  have hpackages : s.TellsScopesApart (Go.namer o).scope ↔
      s.TellsScopesApart fun scope => wordsOf 1 (scope.components.map (Go.namer o).escape) := by
    constructor
    · intro happart r r' scope scope' name name' hr hr' hroot hroot' heq
      exact happart r r' scope scope' name name' hr hr' hroot hroot' ((Go.scope_eq_iff o hroot hroot').2 heq)
    · intro happart r r' scope scope' name name' hr hr' hroot hroot' heq
      exact happart r r' scope scope' name name' hr hr' hroot hroot' ((Go.scope_eq_iff o hroot hroot').1 heq)
  refine ⟨hkeys, hlocals, hpackages, ?_, ?_⟩
  · intro hbare
    have hwords := h.words_tellApart hbare
    exact ⟨hkeys.2 hwords, hlocals.2 hwords, hpackages.2 (h.packages_tellApart hbare o)⟩
  · rintro env rfl owner i t d hi hne hd
    exact Lua.localName_eq hi hne hd

/-- The sample has no underscores, so its definitions are told apart. -/
theorem sampleDoc_flatNames : ∃ s, Schema.ofDocument sampleDoc = .ok s ∧ s.NoUnderscores ∧
    s.TellsApart (JsonSchema.namer {}).scopedType ∧ s.TellsApart Lua.moduleLocal ∧ s.TellsScopesApart (Go.namer {}).scope := by
  obtain ⟨s, hs, hnames⟩ := Schema.exists_ofDocument sampleDoc
    (fun s => (s.enums.map (fun e => (e.scope, e.name)) ++ s.structs.map fun d => (d.scope, d.name)).all
      fun p => (p.1.components ++ [p.2]).all fun c => !c.toList.contains '_') true (by decide +kernel)
  have hbare : s.NoUnderscores := by
    intro r scope name hr p hp
    have hmem : (scope, name) ∈ s.enums.map (fun e => (e.scope, e.name)) ++ s.structs.map fun d => (d.scope, d.name) := by
      cases r with
      | enum i =>
        obtain ⟨e, he, heq⟩ := Option.map_eq_some_iff.1 hr
        exact List.mem_append_left _ (List.mem_map.2 ⟨e, List.mem_of_getElem? he, heq⟩)
      | struct i =>
        obtain ⟨d, hd, heq⟩ := Option.map_eq_some_iff.1 hr
        exact List.mem_append_right _ (List.mem_map.2 ⟨d, List.mem_of_getElem? hd, heq⟩)
    simpa using List.all_eq_true.1 (List.all_eq_true.1 hnames _ hmem) p hp
  exact ⟨s, hs, hbare, (Schema.ofDocument_flatNames hs {}).2.2.2.1 hbare⟩

/-- Names with underscores where other names have a namespace. -/
def clashingDoc : SchemaDoc where
  structs := [{ name := "C", scope := "A.B" }, { name := "B_C", scope := "A" }, { name := "D", scope := "A__B" }]

/-- Two definitions have one key and one local variable, and two namespaces have one package name. -/
theorem clashingDoc_flatNames : ∃ s, Schema.ofDocument clashingDoc = .ok s ∧
    ¬s.TellsApart (JsonSchema.namer {}).scopedType ∧ ¬s.TellsApart Lua.moduleLocal ∧
    ¬s.TellsScopesApart (Go.namer {}).scope := by
  obtain ⟨s, hs, hlook⟩ := Schema.exists_ofDocument clashingDoc
    (fun s => (s.nameAt? (.struct 0), s.nameAt? (.struct 1), s.nameAt? (.struct 2)))
    (some (⟨["A", "B"]⟩, "C"), some (⟨["A"]⟩, "B_C"), some (⟨["A__B"]⟩, "D")) (by decide +kernel)
  simp only [Prod.mk.injEq] at hlook
  obtain ⟨h0, h1, h2⟩ := hlook
  obtain ⟨_, _, h⟩ := Schema.ofDocument_loaded hs
  have hwords : wordsOf 0 (["A", "B"] ++ ["C"]) = wordsOf 0 (["A"] ++ ["B_C"]) := by decide +kernel
  refine ⟨s, hs, ?_, ?_, ?_⟩
  · intro happart
    cases happart _ _ _ _ _ _ h0 h1 ((JsonSchema.scopedType_eq_iff {}).2 hwords)
  · intro happart
    obtain ⟨hname, hscope⟩ := Schema.nameAt?_isIdentifier h.valid h0
    obtain ⟨hname', hscope'⟩ := Schema.nameAt?_isIdentifier h.valid h1
    cases happart _ _ _ _ _ _ h0 h1 ((Lua.moduleLocal_eq_iff hscope hname hscope' hname').2 hwords)
  · intro happart
    have hpackages : (Go.namer {}).scope ⟨["A", "B"]⟩ = (Go.namer {}).scope ⟨["A__B"]⟩ :=
      (Go.scope_eq_iff {} rfl rfl).2 (by decide +kernel)
    exact absurd (happart _ _ _ _ _ _ h0 h2 rfl rfl hpackages) (by decide)

end FlatSchema

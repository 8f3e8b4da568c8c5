import FlatSchema.Proofs.WellTyped

/-!
# Qualified names

The table of names leads from every qualified name to the one definition that has it (`NameTable.lookup_eq_some_iff`), and a name
used inside a namespace denotes the definition that is found innermost (`NameTable.find?_eq_some_iff`). The names of a schema are
identifiers, so that a qualified name tells its namespace and its last component apart (`Namespace.qualify_inj`).
-/

namespace FlatSchema

/-! ## Identifiers -/

/-- The characters of identifiers. -/
def isWordChar (c : Char) : Bool := c.isAlphanum || c == '_'

/-- An identifier is a text of word characters that is not empty. -/
theorem isIdentifier_chars {s : String} (h : isIdentifier s = true) :
    ∃ c rest, s.toList = c :: rest ∧ ∀ d ∈ s.toList, isWordChar d = true := by
  unfold isIdentifier at h
  split at h
  next => cases h
  next c rest hs =>
    refine ⟨c, rest, hs, fun d hd => ?_⟩
    simp only [Bool.and_eq_true, Bool.or_eq_true, List.all_eq_true] at h
    rw [hs] at hd
    unfold isWordChar Char.isAlphanum
    rcases List.mem_cons.1 hd with rfl | hd
    · rcases h.1 with hc | hc <;> simp [hc]
    · simpa [Char.isAlphanum] using h.2 d hd

/-- An identifier has no other characters. -/
theorem not_mem_of_isIdentifier {s : String} (h : isIdentifier s = true) {c : Char} (hc : isWordChar c = false) :
    c ∉ s.toList := by
  obtain ⟨_, _, _, hall⟩ := isIdentifier_chars h
  intro hmem
  rw [hall c hmem] at hc
  cases hc

/-- The characters of qualified names. -/
def isNameChar (c : Char) : Bool := isWordChar c || c == '.'

/-- A text of name characters. -/
def NameText (s : List Char) : Prop := ∀ c ∈ s, isNameChar c = true

/-- A name has none but the characters of names. -/
theorem NameText.not_mem {s : List Char} (h : NameText s) {c : Char} (hc : isNameChar c = false) : c ∉ s := by
  intro hmem
  rw [h c hmem] at hc
  cases hc

/-! ## Names with their namespaces -/

namespace Namespace

/-- All components are identifiers. -/
def Named (n : Namespace) : Prop := ∀ c ∈ n.components, isIdentifier c = true

theorem eq_of_isRoot {n n' : Namespace} (hn : n.isRoot = true) (hn' : n'.isRoot = true) : n = n' :=
  congrArg mk ((List.isEmpty_iff.1 hn).trans (List.isEmpty_iff.1 hn').symm)

theorem isRoot_iff {n : Namespace} : n.isRoot = true ↔ n.components = [] := List.isEmpty_iff

/-- A qualified name is the components and the name, with a separator between them. -/
theorem qualify_eq (n : Namespace) (name separator : String) :
    n.qualify name separator = separator.intercalate (n.components ++ [name]) := by
  unfold qualify join
  split
  next h => rw [isRoot_iff.1 h, List.nil_append, String.intercalate_singleton]
  next h =>
    rw [String.intercalate_append_of_ne_nil (fun hnil => h (isRoot_iff.2 hnil)) (List.cons_ne_nil _ _),
      String.intercalate_singleton]

/-- The components of a text whose components do not hold the separator. -/
theorem splitOn_intercalate {c : Char} {parts : List String} (hne : parts ≠ []) (h : ∀ p ∈ parts, c ∉ p.toList) :
    ((String.singleton c).intercalate parts).toList.splitOn c = parts.map String.toList := by
  rw [String.toList_intercalate, String.toList_singleton]
  refine List.splitOn_intercalate c ?_ (by simpa using hne)
  intro l hl
  obtain ⟨p, hp, rfl⟩ := List.mem_map.1 hl
  exact h p hp

/-- Parts that do not have the separator in them are told from the joined text. -/
theorem intercalate_inj {c : Char} {parts parts' : List String} (hne : parts ≠ []) (hne' : parts' ≠ [])
    (h : ∀ p ∈ parts, c ∉ p.toList) (h' : ∀ p ∈ parts', c ∉ p.toList)
    (heq : (String.singleton c).intercalate parts = (String.singleton c).intercalate parts') : parts = parts' := by
  have hsplit : parts.map String.toList = parts'.map String.toList := by
    rw [← splitOn_intercalate hne h, ← splitOn_intercalate hne' h', heq]
  exact (List.map_inj_right fun _ _ => String.toList_inj.1).1 hsplit

/-- The parts of a qualified name are identifiers. -/
theorem Named.isIdentifier_qualified {n : Namespace} (hn : n.Named) {name : String} (hname : isIdentifier name = true) :
    ∀ p ∈ n.components ++ [name], isIdentifier p = true := by
  intro p hp
  rcases List.mem_append.1 hp with hp | hp
  · exact hn p hp
  · exact List.mem_singleton.1 hp ▸ hname

/-- The parts of a qualified name have no separators in them. -/
theorem Named.not_mem_qualified {n : Namespace} (hn : n.Named) {name : String} (hname : isIdentifier name = true) {c : Char}
    (hc : isWordChar c = false) : ∀ p ∈ n.components ++ [name], c ∉ p.toList :=
  fun p hp => not_mem_of_isIdentifier (hn.isIdentifier_qualified hname p hp) hc

/-- What holds of the characters of the parts and of the separator holds of all. -/
theorem forall_mem_intercalate {P : Char → Prop} {separator : String} (hseparator : ∀ c ∈ separator.toList, P c) :
    ∀ {parts : List String}, (∀ p ∈ parts, ∀ c ∈ p.toList, P c) → ∀ c ∈ (separator.intercalate parts).toList, P c := by
  intro parts h
  induction parts with
  | nil => exact fun c hc => absurd hc List.not_mem_nil
  | cons p rest ih =>
    have hp := h p List.mem_cons_self
    have hrest := ih fun q hq => h q (List.mem_cons_of_mem p hq)
    cases rest with
    | nil => rwa [String.intercalate_singleton]
    | cons q rest =>
      intro c hc
      rw [String.intercalate_cons_cons, String.toList_append, String.toList_append, List.mem_append, List.mem_append] at hc
      rcases hc with (hc | hc) | hc
      · exact hp c hc
      · exact hseparator c hc
      · exact hrest c hc

/-- Identifiers with dots between them are a name. -/
theorem intercalate_nameText {parts : List String} (h : ∀ p ∈ parts, isIdentifier p = true) :
    NameText (".".intercalate parts).toList := by
  refine forall_mem_intercalate (fun c hc => ?_) fun p hp c hc => ?_
  · rw [List.mem_singleton.1 hc]
    decide
  · obtain ⟨_, _, _, hall⟩ := isIdentifier_chars (h p hp)
    rw [isNameChar, hall c hc, Bool.true_or]

/-- A qualified name is a name. -/
theorem qualify_nameText {n : Namespace} (hn : n.Named) {name : String} (hname : isIdentifier name = true) :
    NameText (n.qualify name ".").toList := by
  rw [qualify_eq]
  exact intercalate_nameText (hn.isIdentifier_qualified hname)

/-- A qualified name of identifiers tells its namespace and its name. -/
theorem qualify_inj {n n' : Namespace} {name name' : String} (hn : n.Named) (hn' : n'.Named) (hname : isIdentifier name = true)
    (hname' : isIdentifier name' = true) (h : n.qualify name "." = n'.qualify name' ".") : n = n' ∧ name = name' := by
  rw [qualify_eq, qualify_eq] at h
  have hparts := intercalate_inj (c := '.') (List.concat_ne_nil _ _) (List.concat_ne_nil _ _)
    (hn.not_mem_qualified hname (by decide)) (hn'.not_mem_qualified hname' (by decide)) h
  obtain ⟨hcomponents, hlast⟩ := List.append_inj' hparts rfl
  exact ⟨congrArg Namespace.mk hcomponents, List.singleton_inj.1 hlast⟩

end Namespace

/-! ## The table of names -/

/-- The qualified name of the definition that a reference leads to. -/
def SchemaDoc.qualifiedAt? (doc : SchemaDoc) : Ref → Option String
  | .enum i => doc.enums[i]?.map EnumDoc.qualifiedName
  | .struct i => doc.structs[i]?.map StructDoc.qualifiedName

/-- No qualified name is declared twice. -/
def SchemaDoc.Distinct (doc : SchemaDoc) : Prop :=
  ∀ ref ref' name, doc.qualifiedAt? ref = some name → doc.qualifiedAt? ref' = some name → ref = ref'

/-- Elements with their places have different places. -/
theorem zipIdx_places {α : Type} (xs : List α) : xs.zipIdx.Pairwise fun a b => a.2 ≠ b.2 := by
  apply List.pairwise_map.1
  show (xs.zipIdx.map Prod.snd).Nodup
  rw [List.zipIdx_map_snd]
  exact List.nodup_range'

/-- With different keys, an entry is what its key is looked up as. -/
theorem lookup_eq_some_of_nodup {β : Type} {name : String} {x : β} : ∀ {entries : List (String × β)},
    (entries.map (·.1)).Nodup → (entries.lookup name = some x ↔ (name, x) ∈ entries)
  | [], _ => by simp
  | (n, y) :: rest, h => by
    obtain ⟨hn, hrest⟩ := List.nodup_cons.1 h
    rw [List.lookup_cons]
    by_cases heq : name = n
    · subst heq
      have hmiss : (name, x) ∉ rest := fun hmem => hn (List.mem_map.2 ⟨_, hmem, rfl⟩)
      simp [hmiss, eq_comm]
    · rw [beq_false_of_ne heq]
      simp [heq, lookup_eq_some_of_nodup hrest]

namespace NameTable

/-- A document declares the names that its references lead to. -/
theorem mem_declarations {doc : SchemaDoc} {name : String} {ref : Ref} :
    (∃ kind, (kind, name, ref) ∈ declarations doc) ↔ doc.qualifiedAt? ref = some name := by
  simp only [declarations, List.mem_append, List.mem_map, Prod.exists, List.mem_zipIdx_iff_getElem?, Prod.mk.injEq]
  cases ref with
  | enum i =>
    constructor
    · rintro ⟨kind, ⟨e, j, he, _, rfl, ⟨⟩⟩ | ⟨_, _, _, _, _, ⟨⟩⟩⟩
      simp [SchemaDoc.qualifiedAt?, he]
    · intro h
      obtain ⟨e, he, rfl⟩ := Option.map_eq_some_iff.1 h
      exact ⟨e.kind, .inl ⟨e, i, he, rfl, rfl, rfl⟩⟩
  | struct i =>
    constructor
    · rintro ⟨kind, ⟨_, _, _, _, _, ⟨⟩⟩ | ⟨d, j, hd, _, rfl, ⟨⟩⟩⟩
      simp [SchemaDoc.qualifiedAt?, hd]
    · intro h
      obtain ⟨d, hd, rfl⟩ := Option.map_eq_some_iff.1 h
      exact ⟨d.kind, .inr ⟨d, i, hd, rfl, rfl, rfl⟩⟩

/-- The declarations of a document refer to different definitions. -/
theorem declarations_refs (doc : SchemaDoc) : (declarations doc).Pairwise fun a b => a.2.2 ≠ b.2.2 := by
  refine List.pairwise_append.2
    ⟨List.pairwise_map.2 ((zipIdx_places _).imp ?_), List.pairwise_map.2 ((zipIdx_places _).imp ?_), ?_⟩
  · exact fun hne heq => hne (Ref.enum.inj heq)
  · exact fun hne heq => hne (Ref.struct.inj heq)
  · intro a ha b hb
    obtain ⟨_, _, rfl⟩ := List.mem_map.1 ha
    obtain ⟨_, _, rfl⟩ := List.mem_map.1 hb
    exact Ref.noConfusion

/-- Declarations are added exactly when their names are new and different. -/
theorem extend_eq_ok : ∀ {ds : List (DefKind × String × Ref)} {table result : NameTable},
    extend table ds = .ok result ↔
      result = table ++ ds.map (·.2) ∧ (ds.map (·.2.1)).Nodup ∧ ∀ d ∈ ds, table.lookup d.2.1 = none
  | [], table, result => by
    simp [extend, eq_comm (a := result)]
  | (kind, name, ref) :: rest, table, result => by
    have hnew : ∀ d : DefKind × String × Ref,
        (table ++ [(name, ref)]).lookup d.2.1 = none ↔ table.lookup d.2.1 = none ∧ name ≠ d.2.1 := by
      intro d
      rw [List.lookup_append, Option.or_eq_none_iff, List.lookup_cons]
      by_cases hd : d.2.1 = name
      · simp [hd]
      · rw [beq_false_of_ne hd]
        simp [Ne.symm hd]
    rw [extend, error_ite_eq_ok, extend_eq_ok]
    simp only [hnew, List.map_cons, List.nodup_cons, List.mem_map, List.forall_mem_cons, Option.not_isSome_iff_eq_none,
      List.append_assoc, List.singleton_append, not_exists, not_and]
    constructor
    · rintro ⟨hname, rfl, hnodup, hrest⟩
      exact ⟨rfl, ⟨fun d hd heq => (hrest d hd).2 heq.symm, hnodup⟩, hname, fun d hd => (hrest d hd).1⟩
    · rintro ⟨rfl, ⟨hdiff, hnodup⟩, hname, hrest⟩
      exact ⟨hname, rfl, hnodup, fun d hd => ⟨hrest d hd, fun heq => hdiff d hd heq.symm⟩⟩

/-- There is a table of names if no name is declared twice, and then it holds all of them. -/
theorem ofDocument_eq_ok {doc : SchemaDoc} {names : NameTable} :
    ofDocument doc = .ok names ↔ names = (declarations doc).map (·.2) ∧ ((declarations doc).map (·.2.1)).Nodup := by
  unfold ofDocument
  rw [extend_eq_ok]
  simp

/-- A name of the table denotes the definition that has it. -/
theorem lookup_eq_some_iff {doc : SchemaDoc} {names : NameTable} (h : ofDocument doc = .ok names) {name : String} {ref : Ref} :
    names.lookup name = some ref ↔ doc.qualifiedAt? ref = some name := by
  obtain ⟨rfl, hnodup⟩ := ofDocument_eq_ok.1 h
  rw [lookup_eq_some_of_nodup (by rwa [List.map_map]), ← mem_declarations]
  simp only [List.mem_map, Prod.exists, Prod.mk.injEq]
  constructor
  · rintro ⟨kind, _, _, hmem, rfl, rfl⟩
    exact ⟨kind, hmem⟩
  · rintro ⟨kind, hmem⟩
    exact ⟨kind, name, ref, hmem, rfl, rfl⟩

/-- A document has a table of names exactly when it declares no name twice. -/
theorem ofDocument_returns_iff {doc : SchemaDoc} : Returns (ofDocument doc) ↔ doc.Distinct := by
  constructor
  · rintro ⟨names, h⟩ ref ref' name href href'
    have hlookup := (lookup_eq_some_iff h).2 href
    rw [(lookup_eq_some_iff h).2 href'] at hlookup
    exact (Option.some.inj hlookup).symm
  · intro h
    refine ⟨_, ofDocument_eq_ok.2 ⟨rfl, List.pairwise_map.2 ((declarations_refs doc).imp_of_mem ?_)⟩⟩
    rintro ⟨kind, name, ref⟩ ⟨kind', name', ref'⟩ ha hb hne (rfl : name = name')
    exact hne (h ref ref' name (mem_declarations.1 ⟨kind, ha⟩) (mem_declarations.1 ⟨kind', hb⟩))

/-- The last number below a bound at which something is found. -/
theorem findSome?_reverse_range {β : Type} {f : Nat → Option β} {x : β} : ∀ {bound : Nat},
    (List.range bound).reverse.findSome? f = some x ↔
      ∃ n, n < bound ∧ f n = some x ∧ ∀ m, n < m → m < bound → f m = none
  | 0 => by simp
  | bound + 1 => by
    rw [List.range_succ, List.reverse_append, List.reverse_singleton, List.singleton_append, List.findSome?_cons]
    cases hf : f bound with
    | some y =>
      constructor
      · rintro ⟨⟩
        exact ⟨bound, Nat.lt_succ_self _, hf, fun m hm hm' => by omega⟩
      · rintro ⟨n, hn, hx, hlater⟩
        by_cases hnb : n = bound
        · rw [← hf, ← hnb, hx]
        · rw [hlater bound (by omega) (by omega)] at hf
          cases hf
    | none =>
      dsimp only
      rw [findSome?_reverse_range]
      constructor
      · rintro ⟨n, hn, hx, hlater⟩
        refine ⟨n, by omega, hx, fun m hm hm' => ?_⟩
        by_cases hmb : m = bound
        · rw [hmb, hf]
        · exact hlater m hm (by omega)
      · rintro ⟨n, hn, hx, hlater⟩
        have hne : n ≠ bound := fun e => by rw [← e, hx] at hf; cases hf
        exact ⟨n, by omega, hx, fun m hm hm' => hlater m hm (by omega)⟩

/-- The name in the namespace of the first components. -/
def candidate (scope : Namespace) (name : String) (n : Nat) : String :=
  Namespace.qualify ⟨scope.components.take n⟩ name "."

/-- A name denotes what the innermost namespace around that has it calls so. -/
theorem find?_eq_some_iff {names : NameTable} {name : String} {scope : Namespace} {ref : Ref} :
    names.find? name scope = some ref ↔
      ∃ n, n ≤ scope.components.length ∧ names.lookup (candidate scope name n) = some ref ∧
        ∀ m, n < m → m ≤ scope.components.length → names.lookup (candidate scope name m) = none := by
  unfold find?
  rw [findSome?_reverse_range]
  simp only [Nat.lt_succ_iff, candidate]

end NameTable

/-! ## The names of a schema -/

/-- The check of names passes if all names are identifiers: of definitions, namespaces, members and fields. -/
theorem Validity.checkNames_eq_ok {s : Schema} :
    checkNames s = .ok () ↔
      (∀ e ∈ s.enums, isIdentifier e.name = true ∧ e.scope.Named) ∧ (∀ d ∈ s.structs, isIdentifier d.name = true ∧ d.scope.Named) ∧
      (∀ e ∈ s.enums, ∀ v ∈ e.vals, isIdentifier v.name = true) ∧ ∀ d ∈ s.structs, ∀ f ∈ d.fields, isIdentifier f.name = true := by
  simp only [checkNames, checkQualified, checkName, seq_eq_ok, forM_eq_ok, demand_eq_ok]
  rfl

namespace Schema

/-- The namespace and the name of the definition that a reference leads to. -/
def nameAt? (s : Schema) : Ref → Option (Namespace × String)
  | .enum i => s.enums[i]?.map fun e => (e.scope, e.name)
  | .struct i => s.structs[i]?.map fun d => (d.scope, d.name)

/-- All names of definitions and of namespaces are identifiers. -/
theorem nameAt?_isIdentifier {s : Schema} (h : s.validate = .ok ()) {ref : Ref} {scope : Namespace} {name : String}
    (href : s.nameAt? ref = some (scope, name)) : isIdentifier name = true ∧ scope.Named := by
  have hnames := Validity.checkNames_eq_ok.1 (Schema.validate_eq_ok.1 h).1
  cases ref with
  | enum i =>
    obtain ⟨e, he, ⟨⟩⟩ := Option.map_eq_some_iff.1 href
    exact hnames.1 e (List.mem_of_getElem? he)
  | struct i =>
    obtain ⟨d, hd, ⟨⟩⟩ := Option.map_eq_some_iff.1 href
    exact hnames.2.1 d (List.mem_of_getElem? hd)

end Schema

namespace Resolve

/-- An enum keeps its name and namespace. -/
theorem enum_name {names : NameTable} {doc : EnumDoc} {e : EnumDef} (h : enum names doc = .ok e) :
    e.scope = Namespace.ofDotted doc.scope ∧ e.name = doc.name := by
  obtain ⟨base, _, h⟩ := bind_eq_ok.1 h
  obtain ⟨vals, _, h⟩ := bind_eq_ok.1 h
  cases h
  exact ⟨rfl, rfl⟩

/-- A struct keeps its name and namespace. -/
theorem struct_name {names : NameTable} {enums : List EnumDef} {doc : StructDoc} {d : StructDef}
    (h : struct names enums doc = .ok d) : d.scope = Namespace.ofDotted doc.scope ∧ d.name = doc.name := by
  obtain ⟨fs, _, h⟩ := bind_eq_ok.1 h
  cases h
  exact ⟨rfl, rfl⟩

end Resolve

namespace Loaded

variable {doc : SchemaDoc} {names : NameTable} {declared : List StructDef} {s : Schema}

/-- The struct or table at some place of the schema comes from the document at this place. -/
theorem struct_origin (h : Loaded doc names declared s) {i : Nat} {d : StructDef} (hd : s.structs[i]? = some d) :
    ∃ sd d', doc.structs[i]? = some sd ∧ Resolve.struct names s.enums sd = .ok d' ∧ d.unplaced = d'.unplaced := by
  obtain ⟨d', hd', hu⟩ := h.placed.unplaced hd
  obtain ⟨sd, hsd, hres⟩ := (mapM_getElem? h.structs).2 i d' hd'
  exact ⟨sd, d', hsd, hres, hu⟩

/-- Loading keeps names. -/
theorem qualifiedAt?_eq (h : Loaded doc names declared s) (ref : Ref) :
    doc.qualifiedAt? ref = (s.nameAt? ref).map fun p => p.1.qualify p.2 "." := by
  cases ref with
  | enum i =>
    simp only [SchemaDoc.qualifiedAt?, Schema.nameAt?, Option.map_map]
    cases he : s.enums[i]? with
    | some e =>
      obtain ⟨ed, hed, hres⟩ := (mapM_getElem? h.enums).2 i e he
      obtain ⟨hscope, hname⟩ := Resolve.enum_name hres
      simp [hed, EnumDoc.qualifiedName, hscope, hname]
    | none =>
      have hlen : doc.enums.length ≤ i := (mapM_getElem? h.enums).1 ▸ List.getElem?_eq_none_iff.1 he
      simp [List.getElem?_eq_none_iff.2 hlen]
  | struct i =>
    simp only [SchemaDoc.qualifiedAt?, Schema.nameAt?, Option.map_map]
    cases hd : s.structs[i]? with
    | some d =>
      obtain ⟨sd, d', hsd, hres, hu⟩ := h.struct_origin hd
      obtain ⟨hscope, hname⟩ := Resolve.struct_name hres
      have hscope' : d.scope = d'.scope := by injection hu
      have hname' : d.name = d'.name := by injection hu
      simp [hsd, StructDoc.qualifiedName, hscope', hname', hscope, hname]
    | none =>
      have hlen : doc.structs.length ≤ i := by
        rw [← (mapM_getElem? h.structs).1, ← h.placed.length_eq]
        exact List.getElem?_eq_none_iff.1 hd
      simp [List.getElem?_eq_none_iff.2 hlen]

/-- The table of names of a schema leads to the definition with a given namespace and name. -/
theorem lookup_qualify_iff (h : Loaded doc names declared s) {scope : Namespace} {name : String} (hscope : scope.Named)
    (hname : isIdentifier name = true) {ref : Ref} :
    names.lookup (scope.qualify name ".") = some ref ↔ s.nameAt? ref = some (scope, name) := by
  rw [NameTable.lookup_eq_some_iff h.table, h.qualifiedAt?_eq, Option.map_eq_some_iff]
  constructor
  · rintro ⟨⟨scope', name'⟩, href, hq⟩
    obtain ⟨hname', hscope'⟩ := Schema.nameAt?_isIdentifier h.valid href
    obtain ⟨rfl, rfl⟩ := Namespace.qualify_inj hscope' hscope hname' hname hq
    exact href
  · intro href
    exact ⟨_, href, rfl⟩

/-- No two definitions of a schema have the same namespace and name. -/
theorem nameAt?_inj (h : Loaded doc names declared s) {ref ref' : Ref} {p : Namespace × String} (href : s.nameAt? ref = some p)
    (href' : s.nameAt? ref' = some p) : ref = ref' := by
  have hdistinct := NameTable.ofDocument_returns_iff.1 ⟨names, h.table⟩
  refine hdistinct ref ref' (p.1.qualify p.2 ".") ?_ ?_
  · rw [h.qualifiedAt?_eq, href]
    rfl
  · rw [h.qualifiedAt?_eq, href']
    rfl

end Loaded

end FlatSchema

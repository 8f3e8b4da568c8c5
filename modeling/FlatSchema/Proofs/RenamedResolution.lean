import FlatSchema.Proofs.Renaming

/-!
# Names at other places

A document that declares the same at other places has a table in which every name denotes the same definition at its new place.
Resolution reads the table and the enums only along references, so each of its functions gives the renamed result, and fails
where it failed before. A root that is declared by its simple name is found at its new place too, since it is the only one.
-/

namespace FlatSchema

variable {r : Renaming} {names names' : NameTable} {enums enums' : List EnumDef}

/-! ## Tables of names -/

/-- Every name denotes the same definition at its new place. -/
def NameTable.Renamed (r : Renaming) (names names' : NameTable) : Prop :=
  ∀ name, names'.lookup name = (names.lookup name).map (Ref.rename r)

/-- A name inside a namespace stands for the renamed definition. -/
theorem NameTable.Renamed.find? (h : names.Renamed r names') (name : String) (scope : Namespace) :
    names'.find? name scope = (names.find? name scope).map (Ref.rename r) := by
  unfold NameTable.find?
  rw [List.map_findSome?]
  exact congrArg (List.findSome? · _) (funext fun n => h _)

namespace SchemaDoc.Reordered

variable {doc doc' : SchemaDoc}

/-- A definition bears its name at its new place. -/
theorem qualifiedAt?_rename (h : doc.Reordered r doc') (ref : Ref) : doc'.qualifiedAt? (ref.rename r) = doc.qualifiedAt? ref := by
  cases ref with
  | enum i =>
    have hi := h.enums i
    rw [Option.map_id] at hi
    exact congrArg (Option.map EnumDoc.qualifiedName) hi
  | struct i =>
    have hi := h.structs i
    rw [Option.map_id] at hi
    exact congrArg (Option.map StructDoc.qualifiedName) hi

/-- The name at a place is that of the definition that has come there. -/
theorem qualifiedAt?_eq (h : doc.Reordered r doc') (ref : Ref) :
    doc'.qualifiedAt? ref = doc.qualifiedAt? (ref.rename r.symm) := by
  rw [← h.qualifiedAt?_rename, Ref.rename_symm_rename]

/-- A document with its declarations in another order has a table of names if the document has one. -/
theorem nameTable (h : doc.Reordered r doc') (hnames : NameTable.ofDocument doc = .ok names) :
    ∃ names', NameTable.ofDocument doc' = .ok names' ∧ names.Renamed r names' := by
  have hdistinct : doc.Distinct := NameTable.ofDocument_returns_iff.1 ⟨names, hnames⟩
  have hdistinct' : doc'.Distinct := by
    intro ref ref' name href href'
    rw [h.qualifiedAt?_eq] at href href'
    rw [← Ref.rename_symm_rename (r := r) ref, hdistinct _ _ name href href', Ref.rename_symm_rename]
  obtain ⟨names', hnames'⟩ := NameTable.ofDocument_returns_iff.2 hdistinct'
  refine ⟨names', hnames', fun name => Option.ext fun ref => ?_⟩
  rw [NameTable.lookup_eq_some_iff hnames', h.qualifiedAt?_eq, ← NameTable.lookup_eq_some_iff hnames, Option.map_eq_some_iff]
  constructor
  · intro href
    exact ⟨_, href, Ref.rename_symm_rename ref⟩
  · rintro ⟨ref, href, rfl⟩
    rw [href, Ref.rename_inj (Ref.rename_symm_rename (r := r) (ref.rename r))]

end SchemaDoc.Reordered

/-- What a traversal gives for a list in another order, if every step gives the renamed result. -/
theorem Moved.mapM {α β : Type} {p : Equiv.Perm Nat} {xs xs' : List α} {ys : List β} {f f' : α → Except LoadError β}
    {change : β → β} (h : Moved p id xs xs') (hf : ∀ x, f' x = change <$> f x) (hys : xs.mapM f = .ok ys) :
    ∃ ys', xs'.mapM f' = .ok ys' ∧ Moved p change ys ys' := by
  have hreturns : Returns (xs'.mapM f') := by
    refine .mapM (h.forall_mem.2 fun x hx => ?_)
    obtain ⟨y, _, hy⟩ := mapM_mem_of_mem hys x hx
    exact ⟨change y, by rw [id_eq, hf, hy]; rfl⟩
  obtain ⟨ys', hys'⟩ := hreturns
  refine ⟨ys', hys', fun i => ?_⟩
  have hi := h i
  rw [Option.map_id] at hi
  cases hx : xs[i]? with
  | none =>
    rw [hx, id_eq, List.getElem?_eq_none_iff, ← (mapM_getElem? hys').1, ← List.getElem?_eq_none_iff] at hi
    rw [List.getElem?_eq_none_iff, ← (mapM_getElem? hys).1, ← List.getElem?_eq_none_iff] at hx
    rw [hi, hx]
    rfl
  | some x =>
    obtain ⟨y, hy, hfx⟩ := mapM_getElem?_of_getElem? hys hx
    obtain ⟨y', hy', hfx'⟩ := mapM_getElem?_of_getElem? hys' (hi.trans hx)
    rw [hf, hfx] at hfx'
    cases hfx'
    rw [hy, hy']
    rfl

/-! ## Enums and unions -/

namespace Resolve

/-- The payload of a variant is renamed. -/
theorem payload_rename (h : names.Renamed r names') (scope : Namespace) (context name : String) :
    payload names' scope context name = TypeDesc.rename r <$> payload names scope context name := by
  unfold payload
  rw [h.find?]
  split
  next => rfl
  next =>
    cases names.find? name scope with
    | none => rfl
    | some ref => cases ref <;> rfl

/-- Members are read alike, with their payloads renamed. -/
theorem members_rename (h : names.Renamed r names') (doc : EnumDoc) (base : BaseType) :
    ∀ (taken : List String) (next : Int) (docs : List MemberDoc),
      members names' doc base taken next docs = List.map (EnumVal.rename r) <$> members names doc base taken next docs
  | _, _, [] => rfl
  | taken, next, m :: rest => by
    rw [members, members]
    simp only [payload_rename h, members_rename h doc base, apply_ite (List.map (EnumVal.rename r) <$> ·), map_bind, map_pure,
      bind_map_left]
    rfl

/-- The same with the empty variant that every union has. -/
theorem values_rename (h : names.Renamed r names') (doc : EnumDoc) (base : BaseType) :
    values names' doc base = List.map (EnumVal.rename r) <$> values names doc base := by
  unfold values
  simp only [members_rename h, apply_ite (List.map (EnumVal.rename r) <$> ·), map_bind, map_pure, bind_map_left]
  rfl

/-- An enum is read alike, with its members renamed. -/
theorem enum_rename (h : names.Renamed r names') (doc : EnumDoc) : enum names' doc = EnumDef.rename r <$> enum names doc := by
  unfold enum
  simp only [values_rename h, map_bind, map_pure, bind_map_left]
  rfl

end Resolve

/-! ## Types -/

namespace TypeExpr

/-- A name stands for the renamed type. -/
theorem resolveName_rename (h : names.Renamed r names') (he : Moved r.enum (EnumDef.rename r) enums enums') (scope : Namespace)
    (context name : String) :
    resolveName names' enums' scope context name = TypeDesc.rename r <$> resolveName names enums scope context name := by
  unfold resolveName
  rw [h.find?]
  split
  next => rfl
  next =>
    cases names.find? name scope with
    | none => rfl
    | some ref =>
      cases ref with
      | struct i => rfl
      | enum i =>
        dsimp only [Option.map_some, Ref.rename]
        rw [he i]
        cases enums[i]? with
        | none => rfl
        | some e =>
          dsimp only [Option.map_some]
          have hunion : (e.rename r).isUnion = e.isUnion := rfl
          rw [hunion]
          split <;> rfl

/-- The text of a type stands for the renamed type. -/
theorem typeOf_rename (h : names.Renamed r names') (he : Moved r.enum (EnumDef.rename r) enums enums') (scope : Namespace)
    (context text : String) :
    typeOf names' enums' scope context text = TypeDesc.rename r <$> typeOf names enums scope context text := by
  unfold typeOf
  dsimp only
  split
  next expr _ =>
    cases expr with
    | name e => exact resolveName_rename h he scope context e
    | vector e =>
      simp only [resolve, resolveName_rename h he, map_bind, map_pure, bind_map_left]
      rfl
    | array e n =>
      simp only [resolve, resolveName_rename h he, map_bind, map_pure, bind_map_left]
      rfl
  next => rfl

end TypeExpr

/-! ## Fields -/

/-- A member is found by its name. -/
theorem EnumDef.val?_rename (e : EnumDef) (name : String) : (e.rename r).val? name = (e.val? name).map (EnumVal.rename r) := by
  unfold EnumDef.val?
  rw [EnumDef.rename_vals, List.find?_map]
  rfl

namespace Default

/-- The numbers of members stay. -/
theorem memberValue?_rename (e : EnumDef) (text : List Char) : memberValue? (e.rename r) text = memberValue? e text := by
  unfold memberValue?
  simp only [EnumDef.val?_rename, Option.map_map]
  rfl

/-- Defaults do not hold references. -/
theorem constant_rename (he : Moved r.enum (EnumDef.rename r) enums enums') (t : TypeDesc) (context : String)
    (raw : Option Json) : constant enums' (t.rename r) context raw = constant enums t context raw := by
  have hstring : ∀ s, ofString enums' (t.rename r) s = ofString enums t s := by
    intro s
    unfold ofString
    have henum := he.bind_getElem? t.enumRef
    rw [TypeDesc.rename_enumRef, henum]
    simp only [Option.bind_map, Function.comp_def, memberValue?_rename]
  have htext : ∀ json, textOf enums' (t.rename r) json = textOf enums t json := by
    intro json
    cases json with
    | string s => exact congrArg Except.ok (hstring s)
    | _ => rfl
  unfold constant
  simp only [htext, TypeDesc.rename_isScalar, TypeDesc.rename_base]

end Default

namespace Resolve

/-- The hidden field of a union is renamed with its union. -/
theorem hiddenField_rename (doc : FieldDoc) (t : TypeDesc) (i : Nat) :
    hiddenField doc (t.rename r) (r.enum i) = (hiddenField doc t i).rename r := by
  unfold hiddenField FieldDef.rename
  rw [TypeDesc.rename_isUnion]
  cases t.isUnion <;> rfl

/-- A field has a hidden one after renaming if it had one before. -/
theorem hiddenFields_rename (doc : FieldDoc) (t : TypeDesc) (context : String) :
    hiddenFields doc (t.rename r) context = List.map (FieldDef.rename r) <$> hiddenFields doc t context := by
  unfold hiddenFields
  rw [TypeDesc.rename_isUnion, TypeDesc.rename_isUnionVector, TypeDesc.rename_enumRef]
  split
  next =>
    cases t.enumRef with
    | none => rfl
    | some i => exact congrArg (fun f => Except.ok [f]) (hiddenField_rename doc t i)
  next => rfl

/-- A nested root is renamed. -/
theorem nested_rename (h : names.Renamed r names') (scope : Namespace) (context : String) (declared : Option String) :
    nested names' scope context declared = Option.map r.struct <$> nested names scope context declared := by
  cases declared with
  | none => rfl
  | some name =>
    rw [nested, nested, h.find?]
    cases names.find? name scope with
    | none => rfl
    | some ref => cases ref <;> rfl

/-- A field is read alike, with its type renamed. -/
theorem field_rename (h : names.Renamed r names') (he : Moved r.enum (EnumDef.rename r) enums enums') (scope : Namespace)
    (context : String) (doc : FieldDoc) (t : TypeDesc) :
    field names' enums' scope context doc (t.rename r) = FieldDef.rename r <$> field names enums scope context doc t := by
  unfold field
  simp only [Default.constant_rename he, nested_rename h, map_bind, map_pure, bind_map_left]
  rfl

/-- Fields are read alike, one after the other. -/
theorem fields_rename (h : names.Renamed r names') (he : Moved r.enum (EnumDef.rename r) enums enums') (scope : Namespace)
    (context : String) : ∀ (taken : List String) (docs : List FieldDoc),
      fields names' enums' scope context taken docs =
        List.map (FieldDef.rename r) <$> fields names enums scope context taken docs
  | _, [] => rfl
  | taken, doc :: rest => by
    have hname : ∀ fs : List FieldDef, (fs.map (FieldDef.rename r)).map (·.name) = fs.map (·.name) := by
      intro fs
      rw [List.map_map]
      rfl
    have hname' : ∀ f : FieldDef, (f.rename r).name = f.name := fun f => rfl
    rw [fields, fields]
    simp only [TypeExpr.typeOf_rename h he, hiddenFields_rename, field_rename h he, fields_rename h he, hname, hname',
      apply_ite (List.map (FieldDef.rename r) <$> ·), map_bind, map_pure, bind_map_left, List.map_append, List.map_cons]
    rfl

/-- A struct is read alike, with its fields renamed. -/
theorem struct_rename (h : names.Renamed r names') (he : Moved r.enum (EnumDef.rename r) enums enums') (doc : StructDoc) :
    struct names' enums' doc = StructDef.rename r <$> struct names enums doc := by
  have hkey : ∀ fs : List FieldDef, (fs.map (FieldDef.rename r)).any (·.key) = fs.any (·.key) := by
    intro fs
    rw [List.any_map]
    rfl
  unfold struct
  simp only [fields_rename h he, map_bind, map_pure, bind_map_left, hkey]
  rfl

/-! ## The root -/

/-- A list without repetitions holds one element if it holds no other. -/
theorem eq_singleton_of_nodup {α : Type} {a : α} : ∀ {l : List α}, l.Nodup → a ∈ l → (∀ b ∈ l, b = a) → l = [a]
  | [], _, ha, _ => absurd ha List.not_mem_nil
  | b :: rest, hnodup, _, hall => by
    have hb : b = a := hall b List.mem_cons_self
    have hrest : rest = [] := List.eq_nil_iff_forall_not_mem.2 fun c hc =>
      (List.nodup_cons.1 hnodup).1 (hb ▸ hall c (List.mem_cons_of_mem b hc) ▸ hc)
    rw [hb, hrest]

/-- The place of the only element of some name. -/
theorem filter_zipIdx_eq_singleton {structs : List StructDef} {name : String} {i : Nat} :
    (∃ d, structs.zipIdx.filter (fun a => a.1.name == name) = [(d, i)]) ↔
      ∀ j, structs[j]?.map (·.name) = some name ↔ j = i := by
  have hmem : ∀ d j, (d, j) ∈ structs.zipIdx.filter (fun a => a.1.name == name) ↔ structs[j]? = some d ∧ d.name = name := by
    intro d j
    rw [List.mem_filter, List.mem_zipIdx_iff_getElem?, beq_iff_eq]
  constructor
  · rintro ⟨d, hone⟩ j
    simp only [Option.map_eq_some_iff, ← hmem, hone, List.mem_singleton, Prod.mk.injEq, exists_eq_left]
  · intro h
    obtain ⟨d, hd, hname⟩ := Option.map_eq_some_iff.1 ((h i).2 rfl)
    refine ⟨d, eq_singleton_of_nodup ?_ ((hmem d i).2 ⟨hd, hname⟩) ?_⟩
    · exact ((zipIdx_places structs).imp fun hne heq => hne (congrArg Prod.snd heq)).filter _
    · rintro ⟨d', j⟩ hd'
      obtain ⟨hd', hname'⟩ := (hmem d' j).1 hd'
      obtain rfl := (h j).1 (Option.map_eq_some_iff.2 ⟨d', hd', hname'⟩)
      rw [hd, Option.some.injEq] at hd'
      rw [hd']

/-- A root is declared by its qualified name, or by a name that no other struct has. -/
theorem rootIndex?_eq_some_iff {structs : List StructDef} {name : String} {i : Nat} :
    rootIndex? names structs name = some i ↔ names.lookup name = some (.struct i) ∨
      (∀ j, names.lookup name ≠ some (.struct j)) ∧ ∀ j, structs[j]?.map (·.name) = some name ↔ j = i := by
  rw [← filter_zipIdx_eq_singleton]
  unfold rootIndex?
  split
  next j hj => simp [hj]
  next hno =>
    have hnone : ∀ j, names.lookup name ≠ some (.struct j) := fun j hj => hno j hj
    simp only [hnone, false_or, ne_eq, not_false_eq_true, implies_true, true_and]
    split
    next d j hone => simp [hone]
    next hmany =>
      constructor
      · intro h
        cases h
      · rintro ⟨d, hone⟩
        exact absurd hone (hmany d i)

/-- The root is found at its new place. -/
theorem rootIndex?_rename {structs structs' : List StructDef} (h : names.Renamed r names')
    (hs : Moved r.struct (StructDef.rename r) structs structs') (name : String) :
    rootIndex? names' structs' name = (rootIndex? names structs name).map r.struct := by
  have hlookup : ∀ i, names'.lookup name = some (.struct (r.struct i)) ↔ names.lookup name = some (.struct i) := by
    intro i
    rw [h name, Option.map_eq_some_iff]
    constructor
    · rintro ⟨ref, href, heq⟩
      have hsame : ref = .struct i := Ref.rename_inj heq
      rw [href, hsame]
    · intro href
      exact ⟨_, href, rfl⟩
  have hname : ∀ i, structs'[r.struct i]?.map (·.name) = structs[i]?.map (·.name) := by
    intro i
    rw [hs i, Option.map_map]
    rfl
  -- a root is found by the table or, where the table has no such struct, by being the only struct of its name
  apply Option.ext
  intro j
  obtain ⟨i, rfl⟩ := r.struct.surjective j
  have hmap : (rootIndex? names structs name).map r.struct = some (r.struct i) ↔ rootIndex? names structs name = some i := by
    rw [Option.map_eq_some_iff]
    constructor
    · rintro ⟨a, ha, heq⟩
      rwa [← r.struct.injective heq]
    · intro ha
      exact ⟨i, ha, rfl⟩
  have hnone : (∀ j, names'.lookup name ≠ some (.struct j)) ↔ ∀ j, names.lookup name ≠ some (.struct j) := by
    rw [r.struct.surjective.forall]
    exact forall_congr' fun j => not_congr (hlookup j)
  have honly : (∀ j, structs'[j]?.map (·.name) = some name ↔ j = r.struct i) ↔
      ∀ j, structs[j]?.map (·.name) = some name ↔ j = i := by
    rw [r.struct.surjective.forall]
    simp only [hname, r.struct.injective.eq_iff]
  rw [hmap, rootIndex?_eq_some_iff, rootIndex?_eq_some_iff, hlookup, hnone, honly]

/-- The root is read alike. -/
theorem root_rename {structs structs' : List StructDef} (h : names.Renamed r names')
    (hs : Moved r.struct (StructDef.rename r) structs structs') (declared : Option String) :
    root names' structs' declared = Option.map r.struct <$> root names structs declared := by
  cases declared with
  | none => rfl
  | some name =>
    rw [root, root, rootIndex?_rename h hs]
    cases rootIndex? names structs name with
    | none => rfl
    | some i =>
      have hfixed : structs'[r.struct i]?.map (·.fixed) = structs[i]?.map (·.fixed) := by
        rw [hs i, Option.map_map]
        rfl
      dsimp only [Option.map_some]
      rw [hfixed]
      split <;> rfl

end Resolve

end FlatSchema

import FlatSchema.Output.Render
import FlatSchema.Plan.Table
import FlatSchema.Proofs.StructPlan

/-!
# What generators look up

Generators follow the references of types to definitions. A schema is closed if all references that they follow lead somewhere:
then each look-up gives a result, for the types of fields, of elements, of payloads, and of the parameters of a struct's plan.
The schema of a document is closed.
-/

namespace FlatSchema

/-! ## Types whose references can be followed -/

/-- The references of a type are places in the schema. -/
def TypeDesc.InRange (s : Schema) (t : TypeDesc) : Prop :=
  (∀ i, t.structRef = some i → i < s.structs.length) ∧ ∀ i, t.enumRef = some i → i < s.enums.length

/-- What a type stands for is found in the schema. -/
structure TypeDesc.Found (s : Schema) (t : TypeDesc) : Prop where
  record : t.base = .struct → ∃ d ∈ s.structs, s.structOf? t = some d
  union : t.base = .union → ∃ e ∈ s.enums, s.enumOf? t = some e ∧ e.isUnion = true
  enumeration : t.isEnum = true → ∃ e, s.enumOf? t = some e

/-- A type that is found and no container. -/
structure TypeDesc.Atom (s : Schema) (t : TypeDesc) : Prop extends t.Found s where
  kind : t.isScalar = true ∨ t.base = .string ∨ t.base = .struct ∨ t.base = .union

/-- An atom, or a vector or array of atoms. -/
inductive TypeDesc.Layered (s : Schema) (t : TypeDesc) : Prop
  | atom (h : t.Atom s)
  | container (hc : t.base.isContainer = true) (h : t.elementType.Atom s)

theorem BaseType.isContainer_iff {b : BaseType} : b.isContainer = true ↔ b = .vector ∨ b = .array := by
  cases b <;> decide

namespace TypeDesc

variable {s : Schema} {t : TypeDesc}

/-- What a well formed type refers to is found. -/
theorem WellFormed.found (h : t.WellFormed s) : t.Found s := by
  refine ⟨?_, ?_, ?_⟩
  · intro hb
    obtain ⟨i, hi⟩ := Option.isSome_iff_exists.1 (h.record hb).1
    have hget := List.getElem?_eq_getElem (h.structRef i hi)
    exact ⟨_, List.mem_of_getElem? hget, Schema.structOf?_eq_some.2 ⟨i, hi, hget⟩⟩
  · intro hb
    obtain ⟨i, e, hi, he, hyes⟩ := h.union (.inl hb)
    exact ⟨e, List.mem_of_getElem? he, Option.bind_eq_some_iff.2 ⟨i, hi, he⟩, hyes⟩
  · intro hb
    simp only [isEnum, Bool.and_eq_true] at hb
    obtain ⟨i, hi⟩ := Option.isSome_iff_exists.1 hb.1.1
    exact ⟨_, Option.bind_eq_some_iff.2 ⟨i, hi, List.getElem?_eq_getElem (h.enumRef i hi)⟩⟩

theorem WellFormed.inRange (h : t.WellFormed s) : t.InRange s := ⟨h.structRef, h.enumRef⟩

/-- An atom is no container. -/
theorem Atom.not_container (h : t.Atom s) : t.base.isContainer = false := by
  rcases h.kind with hk | hk | hk | hk
  · cases hc : t.base.isContainer with
    | false => rfl
    | true =>
      rw [isScalar, BaseType.isScalar_of_isContainer hc] at hk
      cases hk
  · rw [hk]
    rfl
  · rw [hk]
    rfl
  · rw [hk]
    rfl

/-- An atom holds nothing further inside. -/
theorem Atom.innermost_eq (h : t.Atom s) : t.innermost = t := by
  unfold innermost
  rw [h.not_container]
  rfl

/-- Inside its containers a type is an atom. -/
theorem Layered.innermost (h : t.Layered s) : t.innermost.Atom s := by
  cases h with
  | atom h => exact h.innermost_eq.symm ▸ h
  | container hc h =>
    have hinner : t.element.isContainer = false := h.not_container
    unfold TypeDesc.innermost
    rw [if_pos hc, hinner]
    exact h

/-- What a container holds is an atom. -/
theorem Layered.element (h : t.Layered s) (hc : t.base.isContainer = true) : t.elementType.Atom s := by
  cases h with
  | atom h =>
    rw [h.not_container] at hc
    cases hc
  | container _ h => exact h

theorem Layered.vectorElement (h : t.Layered s) (hv : t.isVector = true) : t.elementType.Atom s :=
  h.element (BaseType.isContainer_iff.2 (.inl (isVector_iff.1 hv)))

theorem Layered.arrayElement (h : t.Layered s) (ha : t.isArray = true) : t.elementType.Atom s :=
  h.element (BaseType.isContainer_iff.2 (.inr (isArray_iff.1 ha)))

/-- What a type stands for is found, also if it is a container: then it stands for nothing by itself. -/
theorem Layered.found (h : t.Layered s) : t.Found s := by
  cases h with
  | atom h => exact h.toFound
  | container hc _ =>
    refine ⟨?_, ?_, ?_⟩
    · intro hb
      rw [hb] at hc
      cases hc
    · intro hb
      rw [hb] at hc
      cases hc
    · intro hb
      simp only [isEnum, Bool.and_eq_true] at hb
      have hscalar := BaseType.isScalar_of_isContainer hc
      rw [BaseType.isScalar, hb.1.2] at hscalar
      cases hscalar

end TypeDesc

/-- The types that a schema mentions. -/
inductive Schema.Mentions (s : Schema) : TypeDesc → Prop
  | field {d : StructDef} {f : FieldDef} (hd : d ∈ s.structs) (hf : f ∈ d.fields) : Mentions s f.type
  | element {d : StructDef} {f : FieldDef} (hd : d ∈ s.structs) (hf : f ∈ d.fields) (hc : f.type.base.isContainer = true) :
    Mentions s f.type.elementType
  | payload {e : EnumDef} {v : EnumVal} (he : e ∈ s.enums) (hv : v ∈ e.vals) : Mentions s v.payload
  | underlying {e : EnumDef} (he : e ∈ s.enums) : Mentions s e.underlying

/-- Whatever the definitions of a schema refer to is there. -/
structure Schema.Closed (s : Schema) : Prop where
  inRange : ∀ t, s.Mentions t → t.InRange s
  root : ∀ i, s.root = some i → i < s.structs.length
  nested : ∀ d ∈ s.structs, ∀ f ∈ d.fields, ∀ i, f.nested = some i → i < s.structs.length
  field : ∀ d ∈ s.structs, ∀ f ∈ d.fields, f.type.Layered s
  /-- Tables have no arrays. -/
  array : ∀ d ∈ s.structs, ∀ f ∈ d.fields, f.type.isArray = true → d.fixed = true
  payload : ∀ e ∈ s.enums, ∀ v ∈ e.vals, v.payload.Found s ∧ v.payload.base.isContainer = false
  underlying : ∀ e ∈ s.enums, e.underlying.Found s ∧ e.underlying.base.isContainer = false
  /-- A variant of a union carries a string or a table. -/
  variant : ∀ e ∈ s.enums, e.isUnion = true → ∀ v ∈ e.variants, v.payload.isString = true ∨ s.isTable v.payload = true

theorem StructDef.mem_of_mem_liveFields {d : StructDef} {f : FieldDef} (h : f ∈ d.liveFields) : f ∈ d.fields :=
  (List.mem_filter.1 h).1

theorem EnumDef.mem_of_mem_variants {e : EnumDef} {v : EnumVal} (h : v ∈ e.variants) : v ∈ e.vals := (List.mem_filter.1 h).1

/-- A definition is one of a schema. -/
def Definition.Within (s : Schema) : Definition → Prop
  | .enum _ e => e ∈ s.enums
  | .struct _ d => d ∈ s.structs

/-- The definitions of a schema are its enums and structs. -/
theorem Schema.definitions_within {s : Schema} : ∀ d ∈ s.definitions, d.Within s := by
  intro d hd
  rcases List.mem_append.1 hd with hd | hd
  · obtain ⟨⟨e, i⟩, hmem, rfl⟩ := List.mem_map.1 hd
    exact List.mem_of_getElem? (List.mem_zipIdx_iff_getElem?.1 (List.mem_filter.1 hmem).1)
  · obtain ⟨⟨d, i⟩, hmem, rfl⟩ := List.mem_map.1 hd
    exact List.mem_of_getElem? (List.mem_zipIdx_iff_getElem?.1 (List.mem_filter.1 hmem).1)

/-- In a closed schema every type that is mentioned finds what it refers to. -/
theorem Schema.Closed.found_innermost {s : Schema} (h : s.Closed) {t : TypeDesc} (ht : s.Mentions t) :
    t.innermost.Found s := by
  have hplain : ∀ {t : TypeDesc}, t.Found s ∧ t.base.isContainer = false → t.innermost.Found s := by
    intro t ⟨hfound, hc⟩
    unfold TypeDesc.innermost
    rw [hc]
    exact hfound
  cases ht with
  | field hd hf => exact (h.field _ hd _ hf).innermost.toFound
  | element hd hf hc =>
    have hatom := (h.field _ hd _ hf).element hc
    exact hplain ⟨hatom.toFound, hatom.not_container⟩
  | payload he hv => exact hplain (h.payload _ he _ hv)
  | underlying he => exact hplain (h.underlying _ he)

/-! ## Schemas of documents -/

theorem Denoted.atom {s : Schema} {t : TypeDesc} (h : Denoted s.enums s.structs.length t) : t.Atom s :=
  ⟨h.wellFormed.found, h.isElement⟩

/-- The types of fields have one layer at most. -/
theorem Held.layered {s : Schema} {t : TypeDesc} (h : Held s.enums s.structs.length t) : t.Layered s := by
  cases h with
  | expressed h =>
    cases h with
    | name h => exact .atom h.atom
    | vector h => exact .container rfl (h.elementType_eq ▸ h.atom)
    | array h => exact .container rfl (h.elementType_eq ▸ h.atom)
  | discriminant he hyes => exact .atom ⟨(TypeDesc.union_wellFormed he hyes).2.found, .inl rfl⟩
  | discriminants he hyes => exact .container rfl ⟨(TypeDesc.union_wellFormed he hyes).2.found, .inl rfl⟩

theorem TypeDesc.plain_found {s : Schema} {b : BaseType} (hs : b ≠ .struct) (hu : b ≠ .union) : (TypeDesc.plain b).Found s :=
  ⟨fun h => absurd h hs, fun h => absurd h hu, nofun⟩

namespace EnumDef.Resolved

variable {s : Schema} {e : EnumDef}

/-- The table of a variant is found. -/
theorem payload_found (h : e.Resolved s.structs.length) {v : EnumVal} (hv : v ∈ e.vals) :
    v.payload.InRange s ∧ v.payload.Found s ∧ v.payload.base.isContainer = false := by
  rcases h.payload v hv with hp | hp | ⟨i, hi, hp⟩
  · rw [hp]
    exact ⟨⟨nofun, nofun⟩, TypeDesc.plain_found nofun nofun, rfl⟩
  · rw [hp]
    exact ⟨⟨nofun, nofun⟩, TypeDesc.plain_found nofun nofun, rfl⟩
  · have hrecord := TypeDesc.record_wellFormed hi
    rw [hp]
    exact ⟨hrecord.inRange, hrecord.found, rfl⟩

/-- The type of an enum refers to nothing. -/
theorem underlying_found (h : e.Resolved s.structs.length) :
    e.underlying.InRange s ∧ e.underlying.Found s ∧ e.underlying.base.isContainer = false := by
  have hinteger : ∃ b : BaseType, e.underlying = .plain b ∧ b.isInteger = true := by
    cases hu : e.isUnion with
    | true => exact ⟨.utype, h.union hu, rfl⟩
    | false =>
      obtain ⟨b, hb, hint, _⟩ := h.enum hu
      exact ⟨b, hb, hint⟩
  obtain ⟨b, hb, hint⟩ := hinteger
  rw [hb]
  refine ⟨⟨nofun, nofun⟩, TypeDesc.plain_found ?_ ?_, ?_⟩
  · rintro rfl
    nomatch hint
  · rintro rfl
    nomatch hint
  · cases b with
    | vector | array => nomatch hint
    | _ => rfl

end EnumDef.Resolved

/-- A schema that is loaded is closed: there is no reference in it that leads nowhere. -/
theorem Loaded.closed {doc : SchemaDoc} {names : NameTable} {declared : List StructDef} {s : Schema}
    (h : Loaded doc names declared s) : s.Closed := by
  refine ⟨?_, fun i hi => h.root_lt hi, ?_, ?_, ?_, ?_, ?_, ?_⟩
  · intro t ht
    cases ht with
    | field hd hf => exact (h.held hd hf).wellFormed.1.inRange
    | element hd hf => exact (h.held hd hf).wellFormed.1.inRange
    | payload he hv => exact ((h.enum_resolved he).payload_found hv).1
    | underlying he => exact (h.enum_resolved he).underlying_found.1
  · intro d hd f hf
    exact ((h.declared_fields hd).held f hf).2
  · intro d hd f hf
    exact (h.held hd hf).layered
  · intro d hd f hf ha
    exact (h.array hd hf ha).1
  · intro e he v hv
    exact ((h.enum_resolved he).payload_found hv).2
  · intro e he
    exact (h.enum_resolved he).underlying_found.2
  · intro e he hu v hv
    obtain ⟨hv, hzero⟩ := List.mem_filter.1 hv
    obtain ⟨low, high, _, hmembers⟩ := Validity.checkEnum_eq_ok.1 ((Schema.validate_eq_ok.1 h.valid).2.1 e he)
    rcases (Validity.checkMembers_eq_ok.1 hmembers).2.2.2 hu v hv with hz | hpayload
    · rw [hz] at hzero
      nomatch hzero
    · exact hpayload

/-! ## Look-ups -/

namespace Env

variable {env : Env} {t : TypeDesc}

/-- The generator looks up the struct of a type in the schema. -/
theorem structOf_eq_ok {d : StructDef} : env.structOf t = .ok d ↔ env.schema.structOf? t = some d := by
  unfold structOf
  cases env.schema.structOf? t <;> simp

/-- The generator looks up the enum of a type in the schema. -/
theorem enumOf_eq_ok {e : EnumDef} : env.enumOf t = .ok e ↔ env.schema.enumOf? t = some e := by
  unfold enumOf
  cases env.schema.enumOf? t <;> simp

/-- A type of structs has its struct. -/
theorem returns_structOf (h : t.Found env.schema) (hb : t.base = .struct) : Returns (env.structOf t) := by
  obtain ⟨d, _, hd⟩ := h.record hb
  exact ⟨d, structOf_eq_ok.2 hd⟩

/-- A type of unions has its union. -/
theorem returns_unionOf (h : t.Found env.schema) (hb : t.base = .union) : Returns (env.enumOf t) := by
  obtain ⟨e, _, he, _⟩ := h.union hb
  exact ⟨e, enumOf_eq_ok.2 he⟩

/-- An enum type has its enum. -/
theorem returns_enumOf (h : t.Found env.schema) (hb : t.isEnum = true) : Returns (env.enumOf t) := by
  obtain ⟨e, he⟩ := h.enumeration hb
  exact ⟨e, enumOf_eq_ok.2 he⟩

/-- There is a struct at every index in bounds. -/
theorem returns_structAt {i : Nat} (hi : i < env.schema.structs.length) : Returns (env.structAt i) := by
  unfold structAt
  rw [List.getElem?_eq_getElem hi]
  exact .ok _

/-- The struct at an index is one of the schema. -/
theorem mem_of_structAt {i : Nat} {d : StructDef} (h : env.structAt i = .ok d) : d ∈ env.schema.structs := by
  unfold structAt at h
  split at h
  next _ hi =>
    cases h
    exact List.mem_of_getElem? hi
  next => cases h

/-- The struct that is found is one of the schema. -/
theorem mem_of_structOf {d : StructDef} (h : env.structOf t = .ok d) : d ∈ env.schema.structs :=
  Schema.mem_of_structOf? (structOf_eq_ok.1 h)

/-- The union that is found is one of the schema. -/
theorem union_of_enumOf {e : EnumDef} (hfound : t.Found env.schema) (hb : t.base = .union) (h : env.enumOf t = .ok e) :
    e ∈ env.schema.enums ∧ e.isUnion = true := by
  obtain ⟨e', hmem, he', hyes⟩ := hfound.union hb
  rw [enumOf_eq_ok.1 h, Option.some.injEq] at he'
  subst he'
  exact ⟨hmem, hyes⟩

end Env

/-- A type that passes for a table has one. -/
theorem Schema.isTable_spec {s : Schema} {t : TypeDesc} (h : s.isTable t = true) :
    t.base = .struct ∧ ∃ d, s.structOf? t = some d ∧ d.fixed = false := by
  unfold Schema.isTable at h
  rw [Bool.and_eq_true, TypeDesc.isStruct_iff] at h
  obtain ⟨hb, h⟩ := h
  split at h
  next d hd => exact ⟨hb, d, hd, by simpa using h⟩
  next => nomatch h

/-- A payload that is no string is a table, which is found. -/
theorem Schema.Closed.returns_payload {env : Env} (h : env.schema.Closed) {e : EnumDef} (he : e ∈ env.schema.enums)
    (hu : e.isUnion = true) {v : EnumVal} (hv : v ∈ e.variants) (hstring : v.payload.isString ≠ true) :
    Returns (env.structOf v.payload) := by
  rcases h.variant e he hu v hv with hs | htable
  · exact absurd hs hstring
  · obtain ⟨_, d, hd, _⟩ := Schema.isTable_spec htable
    exact ⟨d, Env.structOf_eq_ok.2 hd⟩

/-! ## What a table's plan builds -/

namespace Schema

variable {s : Schema} {t : TypeDesc}

/-- A child of the kind of unions has a union type. -/
theorem childKind?_eq_union (h : s.childKind? t = some .union) : t.base = .union := by
  unfold childKind? vectorKind at h
  grind [TypeDesc.isUnion]

/-- What is built for a vector is told by its elements. -/
theorem vectorKind_of_childKind? {kind : ChildKind} (h : s.childKind? t = some kind) (hk : kind ∉ [.string, .table, .union]) :
    t.isVector = true ∧ s.vectorKind t.elementType = kind := by
  unfold childKind? at h
  grind

/-- The kind of a vector tells the base type of its elements. -/
theorem base_of_vectorKind : (s.vectorKind t = .unionVector → t.base = .union) ∧
    (s.vectorKind t = .structVector → t.base = .struct) := by
  unfold vectorKind
  grind [TypeDesc.isUnion, TypeDesc.isStruct]

end Schema

/-! ## The parameters of a struct's plan -/

/-- An array stands in a path, and above the end of it if its elements are structs. -/
def ArraySpan.InPath (a : ArraySpan) (path : List FieldDef) : Prop :=
  a.fieldIndex < path.length ∧ (a.ofStructs = true → a.fieldIndex + 1 < path.length)

/-- A parameter is the value of a field of the schema, or an element of it, and the array around it stands in its path. -/
structure StructParam.Sound (s : Schema) (p : StructParam) : Prop where
  field : ∃ d ∈ s.structs, ∃ f ∈ d.fields, p.field? = some f ∧
    (p.type = f.type ∨ (f.type.isArray = true ∧ p.type = f.type.elementType))
  span : ∀ a, p.span = some a → a.InPath p.path

namespace StructPlan

variable {s : Schema}

/-- One field: its own parameter is sound, and so are those of a struct inside it if they are on the next level. -/
theorem fieldParams_sound (hs : s.Closed) {depth : Nat}
    (ih : ∀ {d : StructDef} {lead : String} {path : List FieldDef} {span : Option ArraySpan}, d ∈ s.structs →
      (∀ a, span = some a → a.fieldIndex < path.length) → ∀ p ∈ paramsOf s depth d lead path span, p.Sound s)
    {d : StructDef} (hd : d ∈ s.structs) {f : FieldDef} (hf : f ∈ d.fields) {name : String} {path : List FieldDef}
    {span : Option ArraySpan} (hspan : ∀ a, span = some a → a.fieldIndex < path.length) :
    ∀ p ∈ fieldParams s depth path span name f, p.Sound s := by
  have hlast : (path ++ [f]).getLast? = some f := List.getLast?_concat
  have hlen : (path ++ [f]).length = path.length + 1 := by rw [List.length_append, List.length_singleton]
  intro p hp
  unfold fieldParams at hp
  split at hp
  next =>
    split at hp
    next inner hi =>
      refine ih (Schema.mem_of_structOf? hi) ?_ p hp
      intro a ha
      have hlt := hspan a ha
      omega
    next => exact absurd hp List.not_mem_nil
  next =>
    split at hp
    next harray =>
      split at hp
      next inner hstruct hi =>
        refine ih (Schema.mem_of_structOf? hi) ?_ p hp
        rintro a ⟨⟩
        exact hlen ▸ Nat.lt_succ_self _
      next hno =>
        rw [List.mem_singleton] at hp
        subst hp
        refine ⟨⟨d, hd, f, hf, hlast, .inr ⟨harray, rfl⟩⟩, ?_⟩
        rintro a ⟨⟩
        refine ⟨hlen ▸ Nat.lt_succ_self _, fun hstruct => ?_⟩
        -- an element that is a struct is found, so that its fields are the parameters
        have helement := (hs.field d hd f hf).arrayElement harray
        obtain ⟨inner, _, hi⟩ := helement.record (TypeDesc.isStruct_iff.1 hstruct)
        exact absurd hi (hno inner hstruct)
    next =>
      rw [List.mem_singleton] at hp
      subst hp
      refine ⟨⟨d, hd, f, hf, hlast, .inl rfl⟩, ?_⟩
      intro a ha
      have hlt := hspan a ha
      refine ⟨?_, fun _ => ?_⟩
      · show a.fieldIndex < (path ++ [f]).length
        omega
      · show a.fieldIndex + 1 < (path ++ [f]).length
        omega

/-- The parameters of a struct have types that the schema knows, however deep its parts nest. -/
theorem paramsOf_sound (hs : s.Closed) :
    ∀ (depth : Nat) {d : StructDef} {lead : String} {path : List FieldDef} {span : Option ArraySpan}, d ∈ s.structs →
      (∀ a, span = some a → a.fieldIndex < path.length) → ∀ p ∈ paramsOf s depth d lead path span, p.Sound s
  | 0, _, _, _, _, _, _, p, hp => absurd hp List.not_mem_nil
  | depth + 1, d, lead, path, span, hd, hspan, p, hp => by
    rw [paramsOf_succ, List.mem_flatMap] at hp
    obtain ⟨f, hf, hp⟩ := hp
    exact fieldParams_sound hs (paramsOf_sound hs depth) hd hf hspan p hp

theorem of_sound (hs : s.Closed) {d : StructDef} (hd : d ∈ s.structs) : ∀ p ∈ (StructPlan.of s d).params, p.Sound s :=
  paramsOf_sound hs _ hd nofun

end StructPlan

/-- The type of a parameter is found inside its containers. -/
theorem StructParam.Sound.innermost {s : Schema} (hs : s.Closed) {p : StructParam} (hp : p.Sound s) :
    p.type.innermost.Atom s := by
  obtain ⟨d, hd, f, hf, _, htype | ⟨harray, htype⟩⟩ := hp.field
  · rw [htype]
    exact (hs.field d hd f hf).innermost
  · have helement := (hs.field d hd f hf).arrayElement harray
    rw [htype, helement.innermost_eq]
    exact helement

end FlatSchema

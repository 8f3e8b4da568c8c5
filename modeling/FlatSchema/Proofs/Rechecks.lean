import FlatSchema.Proofs.Cycles
import FlatSchema.Proofs.EnumValues
import FlatSchema.Proofs.StructLayout

/-!
# Rules that are checked twice

Some rules are checked although resolution has seen to them already: that the fields of a struct add up to its size, that the names
of members differ, that enums are integers, that vectors hold no vectors, and that the root is a table. Of every schema that comes
out of resolution they hold (`Resolved.rechecked`), so the checks cannot fail on it. Everything else that can fail does so for
another reason (`FailsFor`), and hence no document is refused for one of these (`Schema.ofDocument_not_recheck`).
-/

namespace FlatSchema

/-! ## Computations that fail for some reasons only -/

universe u v w

/-- A computation fails only for reasons of one kind. -/
def FailsFor {ε : Type u} {α : Type v} (reason : ε → Prop) (x : Except ε α) : Prop := ∀ e, x = .error e → reason e

namespace FailsFor

variable {ε : Type u} {α β : Type v} {γ : Type w} {reason : ε → Prop} {x y : Except ε α}

theorem ok (a : α) : FailsFor reason (.ok a : Except ε α) := by
  intro e h
  cases h

theorem error {e : ε} (h : reason e) : FailsFor reason (.error e : Except ε α) := by
  intro e' he
  cases he
  exact h

/-- A computation that always gives a result fails for no reason. -/
theorem of_returns (h : Returns x) : FailsFor reason x := by
  obtain ⟨a, rfl⟩ := h
  exact ok a

/-- Steps one after the other fail for what one of them fails for. -/
theorem bind {f : α → Except ε β} (hx : FailsFor reason x) (hf : ∀ a, x = .ok a → FailsFor reason (f a)) :
    FailsFor reason (x >>= f) := by
  intro e h
  rcases bind_eq_error.1 h with h | ⟨a, ha, h⟩
  · exact hx e h
  · exact hf a ha e h

/-- What is returned may be computed from the result of a step. -/
theorem map {g : α → β} (hx : FailsFor reason x) : FailsFor reason (x >>= fun a => Pure.pure (g a)) :=
  hx.bind fun a _ => ok (g a)

theorem ite {p : Prop} [Decidable p] (hx : p → FailsFor reason x) (hy : ¬p → FailsFor reason y) :
    FailsFor reason (if p then x else y) := by
  by_cases hp : p
  · rw [if_pos hp]
    exact hx hp
  · rw [if_neg hp]
    exact hy hp

/-- The same for a choice between two computations that go on alike. -/
theorem ite_bind {p : Prop} [Decidable p] {f : α → Except ε β} (hx : p → FailsFor reason x) (hy : ¬p → FailsFor reason y)
    (hf : ∀ a, FailsFor reason (f a)) : FailsFor reason (if p then x >>= f else y >>= f) :=
  .ite (fun hp => (hx hp).bind fun a _ => hf a) fun hp => (hy hp).bind fun a _ => hf a

/-- A list of computations fails for what one of them fails for. -/
theorem mapM {f : α → Except ε β} : ∀ {xs : List α}, (∀ x ∈ xs, FailsFor reason (f x)) → FailsFor reason (xs.mapM f)
  | [], _ => by
    rw [List.mapM_nil]
    exact ok []
  | x :: xs, h => by
    rw [List.mapM_cons]
    refine (h x List.mem_cons_self).bind fun y _ => ?_
    exact (mapM fun z hz => h z (List.mem_cons_of_mem x hz)).map

theorem forM {f : α → Except ε PUnit} : ∀ {xs : List α}, (∀ x ∈ xs, FailsFor reason (f x)) → FailsFor reason (xs.forM f)
  | [], _ => ok PUnit.unit
  | x :: _, h => (h x List.mem_cons_self).bind fun _ _ => forM fun z hz => h z (List.mem_cons_of_mem x hz)

end FailsFor

/-! ## The rules -/

/-- The errors of checks that resolution has made before. -/
def LoadError.isRecheck : LoadError → Bool
  | layoutMismatch _ _ _ => true
  | violation (.memberTwice _ _) => true
  | violation (.enumNotInteger _) => true
  | violation (.badField _ _ .vectorOfVectors) => true
  | violation (.rootFixed _) => true
  | invalidType _ _ .unionWithoutDefinition => true
  | _ => false

/-- A computation reports no error of a check that is made twice. -/
abbrev NoRecheck {α : Type} (x : Except LoadError α) : Prop := FailsFor (fun e => e.isRecheck = false) x

/-- What the checks that are made twice ask for. -/
structure Schema.Rechecked (s : Schema) : Prop where
  layout : ∀ d ∈ s.structs, d.fixed = true → d.fields ≠ [] → Validity.fieldBytes s d = d.byteSize
  members : ∀ e ∈ s.enums, (e.vals.map (·.name)).Nodup
  integers : ∀ e ∈ s.enums, ∃ low high, e.underlying.base.range = some (low, high)
  vectors : ∀ d ∈ s.structs, ∀ f ∈ d.fields, f.type.isVector = true → f.type.element.isContainer = false
  root : ∀ d, s.rootStruct? = some d → d.fixed = false

/-! ## Errors of the resolution -/

/-- Declaring names fails for names only. -/
theorem NameTable.extend_noRecheck : ∀ (declarations : List (DefKind × String × Ref)) (table : NameTable),
    NoRecheck (extend table declarations)
  | [], table => .ok table
  | (_, _, _) :: rest, _ => .ite (fun _ => .error rfl) fun _ => extend_noRecheck rest _

namespace TypeExpr

/-- An expression that cannot be read is at fault in its form. -/
theorem read_fails (s : List Char) : FailsFor (· ≠ .unionWithoutDefinition) (read s) := by
  have hlength : ∀ t, FailsFor (· ≠ .unionWithoutDefinition) (readLength t) := by
    intro t
    unfold readLength
    split
    next => exact .error (by decide)
    next => exact .error (by decide)
    next n _ _ => exact .ok n
  have helement : ∀ t, FailsFor (· ≠ .unionWithoutDefinition) (readElement t) := by
    intro t
    unfold readElement
    split
    next => exact .error (by decide)
    next => exact .ok _
  unfold read
  split
  next inner =>
    split
    next => exact .error (by decide)
    next =>
      split
      next element length _ => exact (hlength length).bind fun n _ => (helement element).map
      next => exact (helement _).map
  next => exact .ok _

variable {names : NameTable} {enums : List EnumDef} {scope : Namespace} {context : String}

/-- A name fails for not being found. -/
theorem resolveName_noRecheck (name : String) : NoRecheck (resolveName names enums scope context name) := by
  unfold resolveName
  split
  next b _ => exact .ok _
  next =>
    split
    next i _ => exact .ok _
    next i _ =>
      split
      next e _ => exact .ok _
      next => exact .error rfl
    next => exact .error rfl

/-- A type fails for its text or for its name. -/
theorem typeOf_noRecheck (text : String) : NoRecheck (typeOf names enums scope context text) := by
  unfold typeOf
  dsimp only
  split
  next expr _ =>
    cases expr with
    | name e => exact resolveName_noRecheck e
    | vector e => exact (resolveName_noRecheck e).map
    | array e n => exact (resolveName_noRecheck e).map
  next fault hread =>
    have hfault := read_fails _ fault hread
    cases fault with
    | unionWithoutDefinition => exact absurd rfl hfault
    | underlyingNotInteger | payloadIsEnum | unterminated | lengthNotNumber | lengthZero | nestedVector => exact .error rfl

end TypeExpr

namespace Resolve

variable {names : NameTable} {enums : List EnumDef} {scope : Namespace} {context : String}

/-- The type of an enum fails for not being an integer type. -/
theorem underlying_noRecheck (doc : EnumDoc) : NoRecheck (underlying doc) := by
  unfold underlying
  refine .ite (fun _ => .ok _) fun _ => ?_
  dsimp only
  split
  next b _ => exact .ite (fun _ => .ok b) fun _ => .error rfl
  next => exact .error rfl

/-- A variant of a union fails for what its name stands for. -/
theorem payload_noRecheck (name : String) : NoRecheck (payload names scope context name) := by
  unfold payload
  refine .ite (fun _ => .ok _) fun _ => ?_
  split
  next i _ => exact .ok _
  next => exact .error rfl
  next => exact .error rfl

/-- The number of a flag fails for its bit. -/
theorem memberValue_noRecheck (bitFlags : Bool) (base : BaseType) (declared : Int) :
    NoRecheck (memberValue bitFlags base context declared) :=
  .ite (fun _ => .ite (fun _ => .ok _) fun _ => .error rfl) fun _ => .ok _

/-- Members fail for their names, numbers and tables. -/
theorem members_noRecheck (doc : EnumDoc) (base : BaseType) :
    ∀ (docs : List MemberDoc) (taken : List String) (next : Int), NoRecheck (members names doc base taken next docs)
  | [], _, _ => .ok []
  | m :: rest, taken, next => by
    rw [members]
    refine .ite (fun _ => .error rfl) fun _ => ?_
    refine (memberValue_noRecheck _ _ _).bind fun value _ => ?_
    refine .ite_bind (fun _ => payload_noRecheck _) (fun _ => .ok _) fun type => ?_
    exact .ite (fun _ => .error rfl) fun _ => (members_noRecheck doc base rest _ _).map

/-- An enum fails for its type or for its members. -/
theorem enum_noRecheck (doc : EnumDoc) : NoRecheck (enum names doc) := by
  refine (underlying_noRecheck doc).bind fun base _ => FailsFor.map ?_
  exact .ite (fun _ => (members_noRecheck doc base _ _ _).map) fun _ => members_noRecheck doc base _ _ _

/-- A type that comes from an expression has the definition of its union. -/
theorem hiddenFields_returns {structs : Nat} {t : TypeDesc} (ht : Expressed enums structs t) (doc : FieldDoc) :
    Returns (hiddenFields doc t context) := by
  unfold hiddenFields
  refine .ite (fun hu => ?_) fun _ => .ok []
  obtain ⟨i, rfl | rfl⟩ := ht.eq_union hu
  · exact .ok _
  · exact .ok _

/-- A default fails for its value. -/
theorem constant_noRecheck (t : TypeDesc) : ∀ declared : Option Json, NoRecheck (Default.constant enums t context declared)
  | none => .ok _
  | some raw => by
    refine .ite (fun _ => ?_) fun _ => .error rfl
    split
    next => exact .error rfl
    next text _ =>
      split
      next => exact .error rfl
      next => exact .ok text

/-- A nested root fails for its name. -/
theorem nested_noRecheck : ∀ declared : Option String, NoRecheck (nested names scope context declared)
  | none => .ok none
  | some name => by
    rw [nested]
    split
    next i _ => exact .ok _
    next => exact .error rfl

/-- Fields fail for their names, types and defaults. -/
theorem fields_noRecheck {structs : Nat} (hnames : names.InRange enums.length structs) (henums : ∀ e ∈ enums, e.Resolved structs) :
    ∀ (docs : List FieldDoc) (taken : List String), NoRecheck (fields names enums scope context taken docs)
  | [], _ => .ok []
  | doc :: rest, taken => by
    rw [fields]
    refine (TypeExpr.typeOf_noRecheck doc.type).bind fun t ht => ?_
    refine (FailsFor.of_returns (hiddenFields_returns (TypeExpr.typeOf_expressed hnames henums ht) doc)).bind fun hidden _ => ?_
    refine FailsFor.bind ((constant_noRecheck t _).bind fun _ _ => (nested_noRecheck _).map) fun f _ => ?_
    exact .ite (fun _ => .error rfl) fun _ => (fields_noRecheck hnames henums rest _).map

/-- The root fails for its name. -/
theorem root_noRecheck (structs : List StructDef) : ∀ declared : Option String, NoRecheck (root names structs declared)
  | none => .ok none
  | some name => by
    rw [root]
    split
    next => exact .error rfl
    next i _ => exact .ite (fun _ => .error rfl) fun _ => .ok _

/-- The file identifier fails for its text. -/
theorem identifier_noRecheck : ∀ declared : Option String, NoRecheck (identifier declared)
  | none => .ok none
  | some _ => .ite (fun _ => .ok _) fun _ => .error rfl

end Resolve

namespace Layout

/-- Slots run out, and nothing else happens to them. -/
theorem placeSlots_noRecheck (table : String) :
    ∀ (fields : List FieldDef) (slot : Nat), NoRecheck (placeSlots table slot fields)
  | [], _ => .ok []
  | _ :: rest, slot => .ite (fun _ => .error rfl) fun _ => (placeSlots_noRecheck table rest (slot + 1)).map

/-- The fields of a struct fail for an offset that is too large. -/
theorem placeFields_noRecheck (structs : List StructDef) (owner : String) :
    ∀ (fields : List FieldDef) (position : Nat), NoRecheck (placeFields structs owner position fields)
  | [], _ => .ok _
  | _ :: rest, _ => .ite (fun _ => .error rfl) fun _ => (placeFields_noRecheck structs owner rest _).bind fun _ _ => .ok _

/-- An alignment fails for its own rule. -/
theorem alignment_noRecheck (s : StructDef) (natural : Nat) : NoRecheck (alignment s natural) := by
  unfold alignment
  split
  next => exact .ok natural
  next raw _ =>
    dsimp only
    split
    next => exact .error rfl
    next n _ => exact .ite (fun _ => .ok n) fun _ => .error rfl

/-- A struct fails for its fields or for its alignment. -/
theorem placeStruct_noRecheck (structs : List StructDef) (s : StructDef) : NoRecheck (placeStruct structs s) :=
  (placeFields_noRecheck structs s.name s.fields 0).bind fun _ _ => (alignment_noRecheck s _).map

/-- Structs are refused for a cycle, or as one of them would be. -/
theorem placeAll_noRecheck (structs : List StructDef) : NoRecheck (placeAll structs) := by
  intro e h
  rcases placeAllBy_refusal placeStruct_keeps h with ⟨names, rfl⟩ | ⟨structs, s, h⟩ | ⟨s, h⟩
  · rfl
  · exact placeStruct_noRecheck structs s e h
  · exact placeSlots_noRecheck s.name s.fields 0 e h

end Layout

/-- The resolution of a document reports none of these errors. -/
theorem Resolve.schema_noRecheck (doc : SchemaDoc) : NoRecheck (Resolve.schema doc) := by
  refine FailsFor.bind (NameTable.extend_noRecheck _ _) fun names hnames => ?_
  refine FailsFor.bind (.mapM fun e _ => enum_noRecheck e) fun enums henums => ?_
  have hrange : names.InRange enums.length doc.structs.length := by
    rw [(mapM_getElem? henums).1]
    exact NameTable.ofDocument_inRange hnames
  have hresolved : ∀ e ∈ enums, e.Resolved doc.structs.length := by
    intro e he
    obtain ⟨d, _, hd⟩ := mapM_mem henums e he
    exact Resolve.enum_resolved hrange hd
  refine FailsFor.bind (.mapM fun d _ => FailsFor.map (fields_noRecheck hrange hresolved d.fields [])) fun declared _ => ?_
  refine (Layout.placeAll_noRecheck declared).bind fun structs _ => ?_
  refine (root_noRecheck structs doc.rootType).bind fun root _ => ?_
  exact (identifier_noRecheck doc.fileIdentifier).map

/-! ## What resolution sees to -/

/-- Fields in a row take the bytes from the start of the first to the end. -/
theorem Layout.Chain.bytes {s : Schema} {last : Nat} : ∀ {position stop : Nat} {fields : List FieldDef},
    Chain s last position fields stop →
      position + (fields.map fun f => s.inlineSize f.type + f.padding).foldr (· + ·) 0 = stop
  | _, _, [], h => h
  | _, _, f :: rest, ⟨_, _, hrest⟩ => by
    have := hrest.bytes
    simp only [List.map_cons, List.foldr_cons]
    omega

namespace Resolve

/-- Members get different names, none of them taken before. -/
theorem members_names {names : NameTable} {doc : EnumDoc} {base : BaseType} :
    ∀ {docs : List MemberDoc} {taken : List String} {next : Int} {vals : List EnumVal},
      members names doc base taken next docs = .ok vals → (vals.map (·.name)).Nodup ∧ ∀ v ∈ vals, v.name ∉ taken
  | [], _, _, _, h => by
    cases h
    exact ⟨.nil, fun v hv => absurd hv List.not_mem_nil⟩
  | m :: rest, taken, next, vals, h => by
    obtain ⟨value, type, later, _, _, _, hnew, hlater, rfl⟩ := members_cons_eq_ok h
    obtain ⟨hnodup, htaken⟩ := members_names hlater
    refine ⟨List.nodup_cons.2 ⟨fun hm => ?_, hnodup⟩, fun v hv hmem => ?_⟩
    · obtain ⟨v, hv, heq⟩ := List.mem_map.1 hm
      exact htaken v hv (heq ▸ List.mem_cons_self)
    · rcases List.mem_cons.1 hv with rfl | hv
      · exact hnew hmem
      · exact htaken v hv (List.mem_cons_of_mem _ hmem)

/-- No member has the name of another, and no variant that of the variant without a payload. -/
theorem values_names {names : NameTable} {doc : EnumDoc} {base : BaseType} {vals : List EnumVal}
    (h : values names doc base = .ok vals) : (vals.map (·.name)).Nodup := by
  unfold values at h
  split at h
  next =>
    obtain ⟨variants, hvariants, h⟩ := bind_eq_ok.1 h
    cases h
    obtain ⟨hnodup, htaken⟩ := members_names hvariants
    refine List.nodup_cons.2 ⟨fun hm => ?_, hnodup⟩
    obtain ⟨v, hv, heq⟩ := List.mem_map.1 hm
    exact htaken v hv (heq ▸ List.mem_cons_self)
  next => exact (members_names h).1

/-- The root that is found is a table. -/
theorem root_not_fixed {names : NameTable} {structs : List StructDef} : ∀ {declared : Option String} {found : Option Nat},
    root names structs declared = .ok found → ∀ d, found.bind (structs[·]?) = some d → d.fixed = false
  | none, _, h, d, hd => by
    cases h
    cases hd
  | some name, found, h, d, hd => by
    rw [root] at h
    split at h
    next => cases h
    next i _ =>
      obtain ⟨hfixed, h⟩ := error_ite_eq_ok.1 h
      cases h
      have hd : structs[i]? = some d := hd
      rw [hd] at hfixed
      exact Bool.not_eq_true _ ▸ hfixed

end Resolve

/-- The type of an enum has a range: it is an integer type. -/
theorem EnumDef.Resolved.exists_range {structs : Nat} {e : EnumDef} (h : e.Resolved structs) :
    ∃ low high, e.underlying.base.range = some (low, high) := by
  by_cases hu : e.isUnion = true
  · rw [h.union hu]
    exact ⟨_, _, rfl⟩
  · obtain ⟨b, hb, hint, _⟩ := h.enum (Bool.not_eq_true _ ▸ hu)
    rw [hb]
    exact BaseType.exists_range hint

/-- A vector that a field holds has no vectors or arrays in it. -/
theorem Held.element_not_container {s : Schema} {t : TypeDesc} (h : Held s.enums s.structs.length t) (hv : t.isVector = true) :
    t.element.isContainer = false := by
  rcases (h.element hv).2 with helement | helement | helement | helement
  · rw [Bool.eq_false_iff]
    intro hcontainer
    rw [BaseType.isScalar_of_isContainer hcontainer] at helement
    cases helement
  · rw [helement]
    rfl
  · rw [helement]
    rfl
  · rw [helement]
    rfl

/-- A struct of a resolved document is as large as its fields with their padding. -/
theorem Resolved.fieldBytes {doc : SchemaDoc} {names : NameTable} {declared : List StructDef} {s : Schema}
    (h : Resolved doc names declared s) {d : StructDef} (hd : d ∈ s.structs) (hfixed : d.fixed = true) (hne : d.fields ≠ []) :
    Validity.fieldBytes s d = d.byteSize := by
  have hbytes := (h.chain hd hfixed hne).1.bytes
  rwa [Nat.zero_add] at hbytes

/-- Whatever comes out of resolution passes the checks that are made twice. -/
theorem Resolved.rechecked {doc : SchemaDoc} {names : NameTable} {declared : List StructDef} {s : Schema}
    (h : Resolved doc names declared s) : s.Rechecked where
  layout d hd hfixed hne := h.fieldBytes hd hfixed hne
  members e he := by
    obtain ⟨d, _, hd⟩ := mapM_mem h.enums e he
    obtain ⟨base, _, hd⟩ := bind_eq_ok.1 hd
    obtain ⟨vals, hvals, hd⟩ := bind_eq_ok.1 hd
    cases hd
    exact Resolve.values_names hvals
  integers e he := (h.enum_resolved he).exists_range
  vectors d hd f hf hv := ((h.declared_fields hd).held f hf).1.element_not_container hv
  root := Resolve.root_not_fixed h.root

/-! ## Errors of the checks -/

namespace Validity

variable {s : Schema}

/-- A demand is met, or its rule is none of those. -/
theorem demand_noRecheck {condition : Bool} {rule : Violation}
    (h : condition = false → (LoadError.violation rule).isRecheck = false) : NoRecheck (demand condition rule) :=
  .ite (fun _ => .ok ()) fun hno => .error (h (Bool.not_eq_true _ ▸ hno))

/-- Qualified names are looked at for the first time. -/
theorem checkQualified_noRecheck (name : String) (scope : Namespace) : NoRecheck (checkQualified name scope) :=
  (demand_noRecheck fun _ => rfl).bind fun _ _ => .forM fun _ _ => demand_noRecheck fun _ => rfl

/-- Names fail for no rule that has been looked at before. -/
theorem checkNames_noRecheck : NoRecheck (checkNames s) := by
  refine (FailsFor.forM fun e _ => checkQualified_noRecheck _ _).bind fun _ _ => ?_
  refine (FailsFor.forM fun d _ => checkQualified_noRecheck _ _).bind fun _ _ => ?_
  refine (FailsFor.forM fun e _ => .forM fun v _ => demand_noRecheck fun _ => rfl).bind fun _ _ => ?_
  exact .forM fun d _ => .forM fun f _ => demand_noRecheck fun _ => rfl

/-- The members seen so far are those that have been compared with the rest. -/
theorem checkMembers_noRecheck {e : EnumDef} {low high : Int} : ∀ {vals : List EnumVal} {seen : List String},
    (vals.map (·.name)).Nodup → (∀ v ∈ vals, v.name ∉ seen) → NoRecheck (checkMembers s e low high seen vals)
  | [], _, _, _ => .ok ()
  | v :: rest, seen, hnodup, hseen => by
    obtain ⟨hv, hnodup⟩ := List.nodup_cons.1 hnodup
    obtain ⟨hnew, hrest⟩ := List.forall_mem_cons.1 hseen
    have hlater : ∀ w ∈ rest, w.name ∉ v.name :: seen := by
      intro w hw hmem
      rcases List.mem_cons.1 hmem with heq | hmem
      · exact hv (List.mem_map.2 ⟨w, hw, heq⟩)
      · exact hrest w hw hmem
    rw [checkMembers]
    refine FailsFor.bind (demand_noRecheck fun hold => ?_) fun _ _ => ?_
    · rw [Bool.not_eq_false', List.contains_iff_mem] at hold
      exact absurd hold hnew
    · refine .ite (fun _ => .error rfl) fun _ => ?_
      exact (demand_noRecheck fun _ => rfl).bind fun _ _ => checkMembers_noRecheck hnodup hlater

/-- The rules of an enum that have been looked at before hold. -/
theorem checkEnum_noRecheck (h : s.Rechecked) {e : EnumDef} (he : e ∈ s.enums) : NoRecheck (checkEnum s e) := by
  obtain ⟨low, high, hrange⟩ := h.integers e he
  rw [checkEnum, hrange]
  exact checkMembers_noRecheck (h.members e he) fun v _ => List.not_mem_nil

/-- The rules of a fixed struct that have been looked at before hold. -/
theorem checkFixed_noRecheck (h : s.Rechecked) {d : StructDef} (hd : d ∈ s.structs) (hfixed : d.fixed = true) :
    NoRecheck (checkFixed s d) := by
  refine FailsFor.bind (demand_noRecheck fun _ => rfl) fun _ hne => ?_
  have hne : d.fields ≠ [] := by
    rw [demand_eq_ok, Bool.not_eq_true', List.isEmpty_eq_false_iff] at hne
    exact hne
  refine FailsFor.bind (.forM fun f _ => ?_) fun _ _ => ?_
  · refine (demand_noRecheck fun _ => rfl).bind fun _ _ => ?_
    exact (demand_noRecheck fun _ => rfl).bind fun _ _ => demand_noRecheck fun _ => rfl
  · exact .ite (fun _ => .ok ()) fun hbytes => absurd (h.layout d hd hfixed hne) hbytes

/-- The rules of a field of a table that have been looked at before hold. -/
theorem checkTableField_noRecheck (h : s.Rechecked) {d : StructDef} (hd : d ∈ s.structs) {f : FieldDef} (hf : f ∈ d.fields) :
    NoRecheck (checkTableField s d f) := by
  refine (demand_noRecheck fun _ => rfl).bind fun _ _ => ?_
  refine FailsFor.bind (demand_noRecheck fun hold => ?_) fun _ _ => ?_
  · rw [Bool.not_eq_false', Bool.and_eq_true] at hold
    rw [h.vectors d hd f hf hold.1] at hold
    exact absurd hold.2 Bool.false_ne_true
  · exact (demand_noRecheck fun _ => rfl).bind fun _ _ => demand_noRecheck fun _ => rfl

/-- Keys are looked at for the first time. -/
theorem checkKey_noRecheck (d : StructDef) : NoRecheck (checkKey d) := by
  unfold checkKey
  split
  next => exact .ok ()
  next => exact demand_noRecheck fun _ => rfl
  next => exact .error rfl

/-- A struct fails for no rule that has been looked at before. -/
theorem checkStruct_noRecheck (h : s.Rechecked) {d : StructDef} (hd : d ∈ s.structs) : NoRecheck (checkStruct s d) := by
  refine .ite_bind (fun hfixed => checkFixed_noRecheck h hd hfixed) (fun _ => ?_) fun _ => checkKey_noRecheck d
  exact .forM fun f hf => checkTableField_noRecheck h hd hf

/-- The root fails for no rule that has been looked at before. -/
theorem checkRoot_noRecheck (h : s.Rechecked) : NoRecheck (checkRoot s) := by
  unfold checkRoot
  split
  next d hd =>
    refine demand_noRecheck fun hold => ?_
    rw [h.root d hd] at hold
    cases hold
  next => exact .ok ()

end Validity

/-- A schema that passes the checks that are made twice is not refused for one of them. -/
theorem Schema.Rechecked.validate_noRecheck {s : Schema} (h : s.Rechecked) : NoRecheck s.validate := by
  refine Validity.checkNames_noRecheck.bind fun _ _ => ?_
  refine (FailsFor.forM fun e he => Validity.checkEnum_noRecheck h he).bind fun _ _ => ?_
  exact (FailsFor.forM fun d hd => Validity.checkStruct_noRecheck h hd).bind fun _ _ => Validity.checkRoot_noRecheck h

theorem Schema.ofDocument_noRecheck (doc : SchemaDoc) : NoRecheck (Schema.ofDocument doc) := by
  refine (Resolve.schema_noRecheck doc).bind fun s hs => ?_
  obtain ⟨⟨names, declared, h⟩, -⟩ := Resolve.schema_eq_ok.1 hs
  exact h.rechecked.validate_noRecheck.map

/-- Checks that are made twice never fail the second time. The schema that resolution gives passes all of them, so that no document
is refused because its layout does not add up, because a member has the name of another, because an enum is not an integer, because
a vector holds vectors, because the root is a fixed struct, or because a union has no definition. -/
theorem Schema.ofDocument_not_recheck (doc : SchemaDoc) :
    (∀ s, Resolve.schema doc = .ok s → s.Rechecked) ∧ ∀ e, Schema.ofDocument doc = .error e →
      (∀ struct size bytes, e ≠ .layoutMismatch struct size bytes) ∧
      (∀ member enum, e ≠ .violation (.memberTwice member enum)) ∧
      (∀ enum, e ≠ .violation (.enumNotInteger enum)) ∧
      (∀ owner field, e ≠ .violation (.badField owner field .vectorOfVectors)) ∧
      (∀ struct, e ≠ .violation (.rootFixed struct)) ∧
      ∀ expr context, e ≠ .invalidType expr context .unionWithoutDefinition := by
  constructor
  · intro s hs
    obtain ⟨⟨names, declared, h⟩, -⟩ := Resolve.schema_eq_ok.1 hs
    exact h.rechecked
  · intro e he
    have hother : e.isRecheck = false := Schema.ofDocument_noRecheck doc e he
    have hne : ∀ e' : LoadError, e'.isRecheck = true → e ≠ e' := by
      rintro e' hrecheck rfl
      rw [hother] at hrecheck
      cases hrecheck
    exact ⟨fun _ _ _ => hne _ rfl, fun _ _ => hne _ rfl, fun _ => hne _ rfl, fun _ _ => hne _ rfl, fun _ => hne _ rfl,
      fun _ _ => hne _ rfl⟩

/-- Two members of one name, where the names differ before dots are replaced. -/
def echoedDoc : SchemaDoc where
  enums := [{ name := "E", values := [{ name := "A.B" }, { name := "A_B" }] }]

theorem echoedDoc_not_recheck : ∃ e, Schema.ofDocument echoedDoc = .error e ∧
    e = .duplicate .enumValue "E.A_B" ∧ ∀ member enum, e ≠ .violation (.memberTwice member enum) := by
  have hfails : Schema.ofDocument echoedDoc = .error (.duplicate .enumValue "E.A_B") := by rfl
  exact ⟨_, hfails, rfl, ((Schema.ofDocument_not_recheck echoedDoc).2 _ hfails).2.1⟩

end FlatSchema

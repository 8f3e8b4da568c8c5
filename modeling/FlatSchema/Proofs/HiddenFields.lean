import FlatSchema.Proofs.FieldNames
import Mathlib.Data.List.Forall2

/-!
# Hidden fields

A declared field gives a group of fields: itself, with a hidden discriminant in front of it if it is a union or a vector of unions.
The fields of a table are the groups of its declared fields, one after the other (`Resolve.fields_groups`), and layout gives every
field of a table the slot that counts the fields in front of it (`Layout.placeSlots_eq_mapIdx`). So every union has its
discriminant in the slot before its own, every discriminant has its union behind it, and what is left without the discriminants is
what the document declares.
-/

namespace FlatSchema

/-! ## Discriminants and their unions -/

/-- The first field is the discriminant of the second: it has its name with a suffix and the discriminants of the same union, it is
deprecated with it and required only with a vector, and it is no key and has no default of its own. -/
structure FieldDef.Announces (tag f : FieldDef) : Prop where
  name : tag.name = f.name ++ FieldDef.discriminantSuffix
  unionName : tag.unionName? = some f.name
  type : ∃ i, (f.type = .union i ∧ tag.type = .discriminant i) ∨
    (f.type = .vectorOf (.union i) ∧ tag.type = .vectorOf (.discriminant i))
  deprecated : tag.deprecated = f.deprecated
  required : tag.required = (f.required && f.type.isUnionVector)
  key : tag.key = false
  constant : tag.constant = "0"

/-- The name of a union can be read off its discriminant. -/
theorem FieldDef.Tags.unionName?_eq {tag f : FieldDef} (h : tag.Tags f) : tag.unionName? = some f.name := by
  have hsuffix : FieldDef.discriminantSuffix.toList.isSuffixOf tag.name.toList = true := by
    rw [h.1, String.toList_append, List.isSuffixOf_iff_suffix]
    exact List.suffix_append ..
  have htake : tag.name.toList.take (tag.name.toList.length - FieldDef.discriminantSuffix.toList.length) = f.name.toList := by
    rw [h.1, String.toList_append, List.length_append, Nat.add_sub_cancel, List.take_left]
  simp only [FieldDef.unionName?, h.isDiscriminant.1, hsuffix, htake, if_true, String.ofList_toList]

namespace FieldDef.Announces

variable {tag f : FieldDef}

theorem tags (h : tag.Announces f) : tag.Tags f := ⟨h.name, h.type⟩

/-- A hidden field has no hidden field of its own. -/
theorem not_tagged (h : tag.Announces f) : tag.isTagged = false := by
  obtain ⟨i, ⟨_, htag⟩ | ⟨_, htag⟩⟩ := h.type
  · rw [isTagged, htag]
    rfl
  · rw [isTagged, htag]
    rfl

/-- Where fields stand does not matter. -/
theorem of_unplaced {tag' f' : FieldDef} (h : tag.Announces f) (htag : tag'.unplaced = tag.unplaced)
    (hf : f'.unplaced = f.unplaced) : tag'.Announces f' := by
  rw [FieldDef.of_unplaced htag, FieldDef.of_unplaced hf]
  exact ⟨h.name, h.unionName, h.type, h.deprecated, h.required, h.key, h.constant⟩

end FieldDef.Announces

/-! ## Declared fields -/

/-- A field is what its declaration in a struct or table gives, wherever it stands. -/
structure FieldDoc.Gives (names : NameTable) (enums : List EnumDef) (scope : Namespace) (owner : String) (decl : FieldDoc)
    (f : FieldDef) : Prop where
  name : f.name = decl.name
  type : TypeExpr.typeOf names enums scope s!"{owner}.{decl.name}" decl.type = .ok f.type
  constant : Default.constant enums f.type s!"{owner}.{decl.name}" decl.default = .ok f.constant
  nested : Resolve.nested names scope s!"{owner}.{decl.name}" decl.nested = .ok f.nested
  doc : f.doc = decl.doc
  attributes : f.attributes = decl.attributes
  deprecated : f.deprecated = decl.deprecated
  required : f.required = decl.required
  key : f.key = decl.key

/-- What a declaration gives does not depend on where it is laid out. -/
theorem FieldDoc.Gives.of_unplaced {names : NameTable} {enums : List EnumDef} {scope : Namespace} {owner : String}
    {decl : FieldDoc} {f f' : FieldDef} (h : decl.Gives names enums scope owner f) (hf : f'.unplaced = f.unplaced) :
    decl.Gives names enums scope owner f' := by
  rw [FieldDef.of_unplaced hf]
  exact ⟨h.name, h.type, h.constant, h.nested, h.doc, h.attributes, h.deprecated, h.required, h.key⟩

namespace Resolve

variable {names : NameTable} {enums : List EnumDef} {scope : Namespace} {owner : String}

/-- The fields that a declared field gives: itself, with its discriminant in front of it if it is a union. -/
def fieldGroup (names : NameTable) (enums : List EnumDef) (scope : Namespace) (owner : String) (doc : FieldDoc) :
    Except LoadError (List FieldDef) := do
  let place := s!"{owner}.{doc.name}"
  let t ← TypeExpr.typeOf names enums scope place doc.type
  let hidden ← hiddenFields doc t place
  let f ← field names enums scope place doc t
  return hidden ++ [f]

/-- The fields of a struct or table are the groups of its declared fields. -/
theorem fields_groups : ∀ {taken : List String} {docs : List FieldDoc} {fs : List FieldDef},
    fields names enums scope owner taken docs = .ok fs →
      ∃ groups, docs.mapM (fieldGroup names enums scope owner) = .ok groups ∧ fs = groups.flatten
  | _, [], fs, h => by
    cases h
    exact ⟨[], rfl, rfl⟩
  | taken, doc :: rest, fs, h => by
    obtain ⟨t, hidden, f, later, ht, hhidden, hf, _, hlater, rfl⟩ := fields_cons_eq_ok h
    obtain ⟨groups, hgroups, rfl⟩ := fields_groups hlater
    have hgroup : fieldGroup names enums scope owner doc = .ok (hidden ++ [f]) :=
      bind_eq_ok.2 ⟨t, ht, bind_eq_ok.2 ⟨hidden, hhidden, bind_eq_ok.2 ⟨f, hf, rfl⟩⟩⟩
    refine ⟨(hidden ++ [f]) :: groups, ?_, by simp⟩
    rw [List.mapM_cons, hgroup, hgroups]
    rfl

/-- A field is what its declaration gives. -/
theorem field_gives {doc : FieldDoc} {t : TypeDesc} {f : FieldDef}
    (ht : TypeExpr.typeOf names enums scope s!"{owner}.{doc.name}" doc.type = .ok t)
    (h : field names enums scope s!"{owner}.{doc.name}" doc t = .ok f) : doc.Gives names enums scope owner f := by
  obtain ⟨constant, found, hconstant, hfound, rfl⟩ := field_eq_ok h
  exact ⟨rfl, ht, hconstant, hfound, rfl, rfl, rfl, rfl, rfl⟩

/-- The hidden field announces the field behind it. -/
theorem hiddenField_announces {doc : FieldDoc} {f : FieldDef} {i j : Nat} (hf : doc.Gives names enums scope owner f)
    (ht : f.type = .union j ∨ f.type = .vectorOf (.union j)) (hi : f.type.enumRef = some i) :
    (hiddenField doc f.type i).Announces f := by
  have htags := hiddenField_tags hf.name ht hi
  exact ⟨htags.1, htags.unionName?_eq, htags.2, hf.deprecated.symm, by rw [hf.required]; rfl, rfl, rfl⟩

/-- A group of fields: a field that is no union and no discriminant, or a union with its discriminant in front. -/
inductive Group (P : FieldDef → Prop) : List FieldDef → Prop
  | single {f : FieldDef} (hf : P f) (hdisc : f.isDiscriminant = false) (hno : f.isTagged = false) : Group P [f]
  | pair {tag f : FieldDef} (hf : P f) (hdisc : f.isDiscriminant = false) (htag : tag.Announces f) : Group P [tag, f]

/-- A declaration gives a field alone, or behind its hidden field. -/
theorem fieldGroup_group {structs : Nat} (hnames : names.InRange enums.length structs)
    (henums : ∀ e ∈ enums, e.Resolved structs) {doc : FieldDoc} {group : List FieldDef}
    (h : fieldGroup names enums scope owner doc = .ok group) : Group (doc.Gives names enums scope owner) group := by
  obtain ⟨t, ht, h⟩ := bind_eq_ok.1 h
  obtain ⟨hidden, hhidden, h⟩ := bind_eq_ok.1 h
  obtain ⟨f, hf, h⟩ := bind_eq_ok.1 h
  cases h
  have hgives := field_gives ht hf
  have htype : f.type = t := by
    obtain ⟨_, _, _, _, rfl⟩ := field_eq_ok hf
    rfl
  subst htype
  have hexpr := TypeExpr.typeOf_expressed hnames henums ht
  have hdisc : f.isDiscriminant = false := Bool.eq_false_iff.2 hexpr.not_discriminant
  rcases hiddenFields_eq_ok hhidden with ⟨hu, rfl⟩ | ⟨i, hu, hi, rfl⟩
  · exact .single hgives hdisc hu
  · obtain ⟨j, hj⟩ := hexpr.eq_union hu
    exact .pair hgives hdisc (hiddenField_announces hgives hj hi)

end Resolve

/-! ## Groups in a row -/

section Groups

open Resolve

variable {R : FieldDoc → FieldDef → Prop} {docs : List FieldDoc} {groups : List (List FieldDef)}

/-- In front of every union stands its discriminant. -/
theorem groups_discriminant_before (h : List.Forall₂ (fun doc => Group (R doc)) docs groups) :
    ∀ (k : Nat) (f : FieldDef), groups.flatten[k]? = some f → f.isTagged = true →
      ∃ j tag, k = j + 1 ∧ groups.flatten[j]? = some tag ∧ tag.Announces f := by
  induction h with
  | nil =>
    intro k f hf
    cases hf
  | cons hgroup _ ih =>
    intro k f hf hu
    cases hgroup with
    | single _ _ hno =>
      cases k with
      | zero =>
        cases hf
        rw [hno] at hu
        cases hu
      | succ k =>
        obtain ⟨j, tag, rfl, htag, hann⟩ := ih k f hf hu
        exact ⟨j + 1, tag, rfl, htag, hann⟩
    | pair _ _ hann =>
      -- in a pair the first field is the discriminant and the second one its union
      match k with
      | 0 =>
        cases hf
        rw [hann.not_tagged] at hu
        cases hu
      | 1 =>
        cases hf
        exact ⟨0, _, rfl, rfl, hann⟩
      | k + 2 =>
        obtain ⟨j, tag, rfl, htag, hann⟩ := ih k f hf hu
        exact ⟨j + 2, tag, rfl, htag, hann⟩

/-- Behind every discriminant stands its union. -/
theorem groups_union_behind (h : List.Forall₂ (fun doc => Group (R doc)) docs groups) :
    ∀ (k : Nat) (tag : FieldDef), groups.flatten[k]? = some tag → tag.isDiscriminant = true →
      ∃ f, groups.flatten[k + 1]? = some f ∧ tag.Announces f := by
  induction h with
  | nil =>
    intro k f hf
    cases hf
  | cons hgroup _ ih =>
    intro k tag htag hd
    cases hgroup with
    | single _ hdisc _ =>
      cases k with
      | zero =>
        cases htag
        rw [hdisc] at hd
        cases hd
      | succ k => exact ih k tag htag hd
    | pair _ hdisc hann =>
      match k with
      | 0 =>
        cases htag
        exact ⟨_, rfl, hann⟩
      | 1 =>
        cases htag
        rw [hdisc] at hd
        cases hd
      | k + 2 => exact ih k tag htag hd

/-- Without the discriminants the declared fields are left, in their order. -/
theorem groups_declared (h : List.Forall₂ (fun doc => Group (R doc)) docs groups) :
    List.Forall₂ R docs (groups.flatten.filter fun f => !f.isDiscriminant) := by
  induction h with
  | nil => exact .nil
  | cons hgroup _ ih =>
    rw [List.flatten_cons, List.filter_append]
    cases hgroup with
    | single hf hdisc _ =>
      rw [List.filter_singleton, hdisc]
      exact .cons hf ih
    | pair hf hdisc hann =>
      rw [List.filter_cons_of_neg (by simp [hann.tags.isDiscriminant.1]), List.filter_singleton, hdisc]
      exact .cons hf ih

end Groups

/-! ## Slots -/

/-- A field in some slot of a table. -/
def FieldDef.inSlot (k : Nat) (f : FieldDef) : FieldDef := { f with offset := 4 + 2 * k }

/-- A field is in the slot that it is put into. -/
theorem FieldDef.slot_inSlot (k : Nat) (f : FieldDef) : (f.inSlot k).slot = k := by
  have hoffset : (f.inSlot k).offset = 4 + 2 * k := rfl
  rw [slot, hoffset]
  omega

/-- Layout gives the fields of a table their slots in order and changes nothing else. -/
theorem Layout.placeSlots_eq_mapIdx {table : String} : ∀ {slot : Nat} {fields placed : List FieldDef},
    placeSlots table slot fields = .ok placed → placed = fields.mapIdx fun k => FieldDef.inSlot (slot + k)
  | _, [], placed, h => by
    cases h
    rfl
  | slot, f :: rest, placed, h => by
    rw [placeSlots] at h
    obtain ⟨_, h⟩ := error_ite_eq_ok.1 h
    obtain ⟨later, hlater, h⟩ := bind_eq_ok.1 h
    cases h
    rw [placeSlots_eq_mapIdx hlater, List.mapIdx_cons]
    simp only [Nat.add_assoc, Nat.add_comm 1]
    rfl

/-- Slots change nothing that is declared. -/
theorem mapIdx_inSlot_unplaced (fs : List FieldDef) :
    (fs.mapIdx FieldDef.inSlot).map FieldDef.unplaced = fs.map FieldDef.unplaced := by
  refine List.ext_getElem? fun k => ?_
  rw [List.getElem?_map, List.getElem?_mapIdx, List.getElem?_map, Option.map_map]
  rfl

/-- What is known of declared fields wherever they stand is known of them when they are laid out. -/
theorem declared_of_unplaced {R : FieldDoc → FieldDef → Prop}
    (hR : ∀ decl f f', f'.unplaced = f.unplaced → R decl f → R decl f') {docs : List FieldDoc} {fs gs : List FieldDef}
    (hsame : gs.map FieldDef.unplaced = fs.map FieldDef.unplaced)
    (h : List.Forall₂ R docs (fs.filter fun f => !f.isDiscriminant)) :
    List.Forall₂ R docs (gs.filter fun f => !f.isDiscriminant) := by
  have hfilter : ∀ gs : List FieldDef, (gs.filter fun f => !f.isDiscriminant).map FieldDef.unplaced =
      (gs.map FieldDef.unplaced).filter fun f => !f.isDiscriminant := by
    intro gs
    rw [List.filter_map]
    rfl
  have hplain : List.Forall₂ R docs ((fs.filter fun f => !f.isDiscriminant).map FieldDef.unplaced) :=
    List.forall₂_map_right_iff.2 (h.imp fun decl f hf => hR decl f f.unplaced rfl hf)
  rw [hfilter, ← hsame, ← hfilter] at hplain
  exact (List.forall₂_map_right_iff.1 hplain).imp fun decl f hf => hR decl f.unplaced f rfl hf

/-- What is known of declared fields wherever they stand is known of them in their slots. -/
theorem declared_inSlots {R : FieldDoc → FieldDef → Prop} (hR : ∀ decl f f', f'.unplaced = f.unplaced → R decl f → R decl f')
    {docs : List FieldDoc} {fs : List FieldDef} (h : List.Forall₂ R docs (fs.filter fun f => !f.isDiscriminant)) :
    List.Forall₂ R docs ((fs.mapIdx FieldDef.inSlot).filter fun f => !f.isDiscriminant) :=
  declared_of_unplaced hR (mapIdx_inSlot_unplaced fs) h

/-- A traversal that collects results: the results belong to the elements, one by one. -/
theorem mapM_eq_ok_iff {ε α β : Type} {f : α → Except ε β} {xs : List α} {ys : List β} :
    xs.mapM f = .ok ys ↔ List.Forall₂ (fun x y => f x = .ok y) xs ys := by
  induction xs generalizing ys with
  | nil => rw [List.mapM_nil, pure_eq_ok, List.forall₂_nil_left_iff, eq_comm]
  | cons x xs ih =>
    rw [List.mapM_cons, bind_eq_ok, List.forall₂_cons_left_iff]
    simp only [bind_eq_ok, pure_eq_ok, ih]
    constructor
    · rintro ⟨y, hy, rest, hrest, rfl⟩
      exact ⟨y, rest, hy, hrest, rfl⟩
    · rintro ⟨y, rest, hy, hrest, rfl⟩
      exact ⟨y, hy, rest, hrest, rfl⟩

namespace Loaded

variable {doc : SchemaDoc} {names : NameTable} {declared : List StructDef} {s : Schema}

/-- A table of the schema is laid out from the groups of the fields that the document declares for it. -/
theorem table_groups (h : Loaded doc names declared s) {i : Nat} {d : StructDef} (hd : s.structs[i]? = some d)
    (htable : d.fixed = false) :
    ∃ sd groups, doc.structs[i]? = some sd ∧ sd.fixed = false ∧
      sd.fields.mapM (Resolve.fieldGroup names s.enums (Namespace.ofDotted sd.scope) sd.qualifiedName) = .ok groups ∧
      d.fields = groups.flatten.mapIdx FieldDef.inSlot := by
  obtain ⟨d', hd', hu⟩ := h.placed.unplaced hd
  have htable' : d'.fixed = false := (StructDef.fixed_of_unplaced hu).symm.trans htable
  obtain ⟨fields, hslots, hget⟩ := h.placed.table i d' hd' htable'
  rw [hd, Option.some.injEq] at hget
  obtain ⟨sd, hsd, hresolved⟩ := (mapM_getElem? h.structs).2 i d' hd'
  obtain ⟨hfields, hfixed, _, _⟩ := Resolve.struct_eq_ok hresolved
  obtain ⟨groups, hgroups, hflat⟩ := Resolve.fields_groups hfields
  refine ⟨sd, groups, hsd, hfixed.symm.trans htable', hgroups, ?_⟩
  rw [hget, Layout.placeSlots_eq_mapIdx hslots, hflat]
  simp only [Nat.zero_add]

/-- Up to its layout a struct or table of the schema has the groups of the fields that the document declares for it. -/
theorem struct_groups (h : Loaded doc names declared s) {i : Nat} {d : StructDef} (hd : s.structs[i]? = some d) :
    ∃ sd groups, doc.structs[i]? = some sd ∧
      List.Forall₂ (fun decl => Resolve.Group (decl.Gives names s.enums (Namespace.ofDotted sd.scope) sd.qualifiedName))
        sd.fields groups ∧
      d.fields.map FieldDef.unplaced = groups.flatten.map FieldDef.unplaced := by
  obtain ⟨d', hd', hu⟩ := h.placed.unplaced hd
  obtain ⟨sd, hsd, hresolved⟩ := (mapM_getElem? h.structs).2 i d' hd'
  obtain ⟨groups, hgroups, hflat⟩ := Resolve.fields_groups (Resolve.struct_eq_ok hresolved).1
  refine ⟨sd, groups, hsd, ?_, hflat ▸ congrArg StructDef.fields hu⟩
  exact (mapM_eq_ok_iff.1 hgroups).imp fun decl group hgroup =>
    Resolve.fieldGroup_group h.names_inRange (fun e he => h.enum_resolved he) hgroup

/-- The slot of a field of a table is its place among the fields. -/
theorem table_slot (h : Loaded doc names declared s) {i : Nat} {d : StructDef} (hd : s.structs[i]? = some d)
    (htable : d.fixed = false) {k : Nat} {f : FieldDef} (hf : d.fields[k]? = some f) : f.offset = 4 + 2 * k ∧ f.slot = k := by
  obtain ⟨_, groups, _, _, _, hfields⟩ := h.table_groups hd htable
  rw [hfields, List.getElem?_mapIdx, Option.map_eq_some_iff] at hf
  obtain ⟨g, _, rfl⟩ := hf
  exact ⟨rfl, FieldDef.slot_inSlot k g⟩

end Loaded

/-- In a table every union, and every vector of unions, has its discriminant in the slot before its own, and every discriminant
has its union behind it. Without the discriminants the fields are those that the document declares, in their order. The offset of
a field counts all fields in front of it. -/
theorem Schema.ofDocument_discriminants {doc : SchemaDoc} {s : Schema} (h : Schema.ofDocument doc = .ok s) {i : Nat}
    {d : StructDef} (hd : s.structs[i]? = some d) (htable : d.fixed = false) :
    (∀ (k : Nat) (f : FieldDef), d.fields[k]? = some f → f.isTagged = true →
      ∃ j tag, k = j + 1 ∧ d.fields[j]? = some tag ∧ tag.Announces f ∧ tag.slot + 1 = f.slot) ∧
    (∀ (k : Nat) (tag : FieldDef), d.fields[k]? = some tag → tag.isDiscriminant = true →
      ∃ f, d.fields[k + 1]? = some f ∧ f.isTagged = true ∧ tag.Announces f ∧ tag.slot + 1 = f.slot) ∧
    (∃ names sd, NameTable.ofDocument doc = .ok names ∧ doc.structs[i]? = some sd ∧ sd.fixed = false ∧
      List.Forall₂ (FieldDoc.Gives names s.enums (Namespace.ofDotted sd.scope) sd.qualifiedName) sd.fields
        d.declaredFields) ∧
    ∀ (k : Nat) (f : FieldDef), d.fields[k]? = some f → f.offset = 4 + 2 * k := by
  obtain ⟨names, declared, h⟩ := Schema.ofDocument_loaded h
  obtain ⟨sd, groups, hsd, hfixed, hmap, hfields⟩ := h.table_groups hd htable
  have hgroups : List.Forall₂ (fun decl => Resolve.Group
      (decl.Gives names s.enums (Namespace.ofDotted sd.scope) sd.qualifiedName)) sd.fields groups :=
    (mapM_eq_ok_iff.1 hmap).imp fun decl group hgroup =>
      Resolve.fieldGroup_group h.names_inRange (fun e he => h.enum_resolved he) hgroup
  -- a field of the table is a field of a group at its offset
  have hat : ∀ k, d.fields[k]? = groups.flatten[k]?.map (FieldDef.inSlot k) := by
    intro k
    rw [hfields, List.getElem?_mapIdx]
  have hslot : ∀ (j : Nat) (tag f : FieldDef), d.fields[j]? = some tag → d.fields[j + 1]? = some f →
      tag.slot + 1 = f.slot := by
    intro j tag f htag hf
    rw [(h.table_slot hd htable htag).2, (h.table_slot hd htable hf).2]
  refine ⟨?_, ?_, ⟨names, sd, h.table, hsd, hfixed, ?_⟩, ?_⟩
  · intro k f hf hu
    obtain ⟨g, hg, rfl⟩ := Option.map_eq_some_iff.1 ((hat k).symm.trans hf)
    obtain ⟨j, tag, rfl, htag, hann⟩ := groups_discriminant_before hgroups k g hg hu
    have hget : d.fields[j]? = some (tag.inSlot j) := by rw [hat, htag, Option.map_some]
    exact ⟨j, _, rfl, hget, hann.of_unplaced rfl rfl, hslot j _ _ hget hf⟩
  · intro k tag htag hdisc
    obtain ⟨g, hg, rfl⟩ := Option.map_eq_some_iff.1 ((hat k).symm.trans htag)
    obtain ⟨f, hf, hann⟩ := groups_union_behind hgroups k g hg hdisc
    have hget : d.fields[k + 1]? = some (f.inSlot (k + 1)) := by rw [hat, hf, Option.map_some]
    exact ⟨_, hget, hann.tags.isDiscriminant.2, hann.of_unplaced rfl rfl, hslot k _ _ htag hget⟩
  · rw [StructDef.declaredFields, hfields]
    exact declared_inSlots (fun decl f f' hsame hf => hf.of_unplaced hsame) (groups_declared hgroups)
  · exact fun k f hf => (h.table_slot hd htable hf).1

/-- A vector of unions with its discriminants in the slot before it, behind a union with its own. -/
theorem sampleDoc_discriminants : ∃ s d, Schema.ofDocument sampleDoc = .ok s ∧ s.structs[2]? = some d ∧ d.fixed = false ∧
    d.fields.map (·.name) = ["where", "gear_type", "gear", "bag_type", "bag", "color", "raw"] ∧
    ∃ f tag, d.fields[4]? = some f ∧ d.fields[3]? = some tag ∧ tag.Announces f ∧ tag.slot = 3 ∧ f.slot = 4 := by
  obtain ⟨s, hs, hlook⟩ := Schema.exists_ofDocument sampleDoc
    (fun s => s.structs[2]?.map fun d => (d.fixed, d.fields.map (·.name), d.fields[4]?.map fun f => (f.isTagged, f.slot)))
    (some (false, ["where", "gear_type", "gear", "bag_type", "bag", "color", "raw"], some (true, 4))) (by decide +kernel)
  obtain ⟨d, hd, hseen⟩ := Option.map_eq_some_iff.1 hlook
  simp only [Prod.mk.injEq] at hseen
  obtain ⟨htable, hnames, hfield⟩ := hseen
  obtain ⟨f, hf, hseen⟩ := Option.map_eq_some_iff.1 hfield
  simp only [Prod.mk.injEq] at hseen
  obtain ⟨htagged, hslot⟩ := hseen
  obtain ⟨j, tag, hj, htag, hann, hbefore⟩ := (Schema.ofDocument_discriminants hs hd htable).1 4 f hf htagged
  obtain rfl : j = 3 := by omega
  exact ⟨s, d, hs, hd, htable, hnames, f, tag, hf, htag, hann, by omega, hslot⟩

end FlatSchema

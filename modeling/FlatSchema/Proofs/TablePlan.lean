import FlatSchema.Proofs.Emission
import FlatSchema.Proofs.HiddenFields
import FlatSchema.Proofs.Lookups

/-!
# The plans of tables

The fields of a sorted table are added class by class, where a class is a size. Since the classes are those of all base types, no field
is lost (`StructDef.createOrder_perm`), and within a class the order is that of the fields from the last to the first.

An object is packed by a plan that looks at types twice: what is built beforehand, and how a field is added. What is built for which
type is stated apart from the plan (`ChildKind.Builds`), and so is the way in which values of a type are added (`SlotKind.Adds`). The
two looks agree on every type whose values can be added (`Schema.slotKind_of_adds`), and these are the types of all fields of the
tables of a loaded schema (`Loaded.exists_adds`).
-/

namespace FlatSchema

/-! ## Elements in classes -/

section Classes

variable {α : Type} {key : α → Nat} {xs : List α}

/-- Of the elements class by class, those of one class are the elements of that class in their own order. -/
theorem filter_flatMap_filter {classes : List Nat} (h : classes.Nodup) (n : Nat) :
    (classes.flatMap fun m => xs.filter (fun x => key x == m)).filter (fun x => key x == n) =
      if n ∈ classes then xs.filter (fun x => key x == n) else [] := by
  induction classes with
  | nil => rfl
  | cons m classes ih =>
    obtain ⟨hm, hrest⟩ := List.nodup_cons.1 h
    rw [List.flatMap_cons, List.filter_append, ih hrest, List.filter_filter]
    by_cases hnm : n = m
    · subst hnm
      simp [hm]
    · have hnone : (xs.filter fun x => key x == n && key x == m) = [] := by
        rw [List.filter_eq_nil_iff]
        intro x _ hx
        rw [Bool.and_eq_true, beq_iff_eq, beq_iff_eq] at hx
        exact hnm (hx.1.symm.trans hx.2)
      simp [hnone, hnm]

/-- Descending classes give descending keys. -/
theorem pairwise_flatMap_filter {classes : List Nat} (h : classes.Pairwise (· > ·)) :
    (classes.flatMap fun m => xs.filter (fun x => key x == m)).Pairwise fun x y => key y ≤ key x := by
  have hkey : ∀ {m : Nat} {x : α}, x ∈ xs.filter (fun x => key x == m) → key x = m :=
    fun hx => beq_iff_eq.1 (List.mem_filter.1 hx).2
  rw [List.pairwise_flatMap]
  refine ⟨fun m _ => ?_, h.imp fun hgt x hx y hy => ?_⟩
  · refine List.Pairwise.imp_of_mem ?_ (List.pairwise_of_forall fun _ _ => trivial)
    intro x y hx hy _
    exact Nat.le_of_eq ((hkey hy).trans (hkey hx).symm)
  · rw [hkey hx, hkey hy]
    exact Nat.le_of_lt hgt

end Classes

/-! ## The order of fields -/

/-- The sizes of values in place, from the greatest to the least. -/
theorem BaseType.size_mem (b : BaseType) : b.size ∈ [8, 4, 2, 1] := by
  cases b <;> decide

namespace StructDef

/-- Fields are added from the last one to the first. -/
theorem createOrder_of_unsorted {d : StructDef} (h : d.sortBySize = false) : d.createOrder = d.liveFields.reverse := by
  simp [createOrder, h]

/-- Sorted fields are added from large to small, and among those of one size from the last one to the first. -/
theorem createOrder_of_sorted {d : StructDef} (h : d.sortBySize = true) :
    d.createOrder = [8, 4, 2, 1].flatMap fun n => d.liveFields.reverse.filter (fun f => f.type.base.size == n) := by
  simp only [createOrder, h, if_true]

/-- Every live field is added once, and nothing else. -/
theorem createOrder_perm (d : StructDef) : d.createOrder.Perm d.liveFields := by
  cases hsort : d.sortBySize with
  | false =>
    rw [createOrder_of_unsorted hsort]
    exact d.liveFields.reverse_perm
  | true =>
    rw [createOrder_of_sorted hsort]
    have hperm := flatMap_filter_perm (fun f : FieldDef => f.type.base.size) (by decide)
      fun f (_ : f ∈ d.liveFields.reverse) => f.type.base.size_mem
    exact hperm.trans d.liveFields.reverse_perm

/-- The fields of a struct or table in the order in which they are added. They are those that are not deprecated, each of them once.
In a table that is not sorted they go from the last to the first. In a sorted one the sizes do not grow, and the fields of one size
go from the last to the first. -/
theorem createOrder_ordered (d : StructDef) :
    d.createOrder.Perm (d.fields.filter fun f => !f.deprecated) ∧
    (d.sortBySize = false → d.createOrder = (d.fields.filter fun f => !f.deprecated).reverse) ∧
    (d.sortBySize = true →
      (d.createOrder.Pairwise fun f g => g.type.base.size ≤ f.type.base.size) ∧
      ∀ n, d.createOrder.filter (fun f => f.type.base.size == n) =
        (d.fields.filter fun f => !f.deprecated && f.type.base.size == n).reverse) := by
  refine ⟨d.createOrder_perm, createOrder_of_unsorted, fun hsort => ?_⟩
  rw [createOrder_of_sorted hsort]
  refine ⟨pairwise_flatMap_filter (by decide), fun n => ?_⟩
  have hclass : (d.fields.filter fun f => !f.deprecated && f.type.base.size == n).reverse =
      d.liveFields.reverse.filter fun f => f.type.base.size == n := by
    rw [List.filter_reverse, liveFields, List.filter_filter]
    simp only [Bool.and_comm]
  rw [filter_flatMap_filter (by decide), hclass]
  split
  next => rfl
  next hsize =>
    rw [eq_comm, List.filter_eq_nil_iff]
    intro f _ hf
    exact hsize (beq_iff_eq.1 hf ▸ f.type.base.size_mem)

/-- A table with fields of all sizes, two of them of four bytes, and one that is deprecated. -/
def sizesTable : StructDef where
  name := "T"
  sortBySize := true
  fields := [
    { name := "a", type := .plain .bool }, { name := "b", type := .plain .string }, { name := "c", type := .plain .double },
    { name := "d", type := .plain .int, deprecated := true }, { name := "e", type := .plain .ushort },
    { name := "f", type := .plain .float }, { name := "g", type := .plain .ulong }]

/-- A table with fields of four sizes, sorted and not. -/
theorem sizesTable_ordered :
    sizesTable.createOrder.map (·.name) = ["g", "c", "f", "b", "e", "a"] ∧
    (sizesTable.createOrder.filter fun f => f.type.base.size == 4).map (·.name) = ["f", "b"] ∧
    (StructDef.createOrder { sizesTable with sortBySize := false }).map (·.name) = ["g", "f", "e", "c", "b", "a"] := by
  refine ⟨by decide, ?_, ?_⟩
  · rw [((createOrder_ordered sizesTable).2.2 rfl).2 4]
    decide
  · rw [(createOrder_ordered { sizesTable with sortBySize := false }).2.1 rfl]
    decide

end StructDef

/-! ## What is built for a type, and how it is added -/

/-- What is built beforehand for values of a type. A vector goes by its elements. -/
inductive ChildKind.Builds (s : Schema) : ChildKind → TypeDesc → Prop
  | string : Builds s .string (.plain .string)
  | union {i : Nat} : Builds s .union (.union i)
  | table {i : Nat} {d : StructDef} (hd : s.structs[i]? = some d) (htable : d.fixed = false) : Builds s .table (.record i)
  | scalarVector {t : TypeDesc} (hscalar : t.isScalar = true) (hutype : t.base ≠ .utype) : Builds s .scalarVector (.vectorOf t)
  | stringVector : Builds s .stringVector (.vectorOf (.plain .string))
  | tableVector {i : Nat} {d : StructDef} (hd : s.structs[i]? = some d) (htable : d.fixed = false) :
    Builds s .tableVector (.vectorOf (.record i))
  | structVector {i : Nat} {d : StructDef} (hd : s.structs[i]? = some d) (hfixed : d.fixed = true) :
    Builds s .structVector (.vectorOf (.record i))
  | unionVector {i : Nat} : Builds s .unionVector (.vectorOf (.union i))
  | unionTypeVector {i : Nat} : Builds s .unionTypeVector (.vectorOf (.discriminant i))

/-- How values of a type are added. What is built beforehand is added by its offset. -/
inductive SlotKind.Adds (s : Schema) : SlotKind → TypeDesc → Prop
  | scalar {t : TypeDesc} (hscalar : t.isScalar = true) (hutype : t.base ≠ .utype) : Adds s .scalar t
  | unionType {i : Nat} : Adds s .unionType (.discriminant i)
  | inlineStruct {i : Nat} {d : StructDef} (hd : s.structs[i]? = some d) (hfixed : d.fixed = true) : Adds s .inlineStruct (.record i)
  | offset {kind : ChildKind} {t : TypeDesc} (h : kind.Builds s t) : Adds s .offset t

/-- A scalar is nothing else. -/
theorem TypeDesc.isScalar_only {t : TypeDesc} (h : t.isScalar = true) :
    t.isString = false ∧ t.isUnion = false ∧ t.isStruct = false ∧ t.isVector = false := by
  unfold isScalar at h
  unfold isString isUnion isStruct isVector
  cases hb : t.base with
  | utype | bool | byte | ubyte | short | ushort | int | uint | long | ulong | float | double => decide
  | none | string | vector | struct | union | array =>
    rw [hb] at h
    cases h

namespace Schema

variable {s : Schema} {t : TypeDesc}

/-- A type of structs is fixed if its struct is. -/
theorem isFixedStruct_record {i : Nat} {d : StructDef} (hd : s.structs[i]? = some d) : s.isFixedStruct (.record i) = d.fixed := by
  have hfound : s.structOf? (.record i) = some d := structOf?_eq_some.2 ⟨i, rfl, hd⟩
  rw [isFixedStruct, hfound]
  exact Bool.and_true d.fixed

/-- Tables are made before the table that has them, and fixed structs are not. -/
theorem childKind?_record {i : Nat} {d : StructDef} (hd : s.structs[i]? = some d) :
    s.childKind? (.record i) = if d.fixed then none else some .table := by
  have hrecord : s.childKind? (.record i) = if s.isFixedStruct (.record i) then none else some .table := rfl
  rw [hrecord, isFixedStruct_record hd]

/-- A fixed struct lies in the table, and a table elsewhere. -/
theorem slotKind_record {i : Nat} {d : StructDef} (hd : s.structs[i]? = some d) :
    s.slotKind (.record i) = if d.fixed then .inlineStruct else .offset := by
  have hrecord : s.slotKind (.record i) = if s.isFixedStruct (.record i) then .inlineStruct else .offset := rfl
  rw [hrecord, isFixedStruct_record hd]

/-- A vector of records is built by what the records are. -/
theorem childKind?_vectorOf_record {i : Nat} {d : StructDef} (hd : s.structs[i]? = some d) :
    s.childKind? (.vectorOf (.record i)) = some (if d.fixed then .structVector else .tableVector) := by
  have hvector : s.childKind? (.vectorOf (.record i)) =
      some (if s.isFixedStruct (.record i) then .structVector else .tableVector) := rfl
  rw [hvector, isFixedStruct_record hd]

/-- The plan builds what is to be built. -/
theorem childKind?_of_builds {kind : ChildKind} (h : kind.Builds s t) : s.childKind? t = some kind := by
  cases h with
  | string | union | stringVector | unionVector | unionTypeVector => rfl
  | table hd htable => rw [childKind?_record hd, htable]; rfl
  | @scalarVector t hscalar hutype =>
    have helement : (TypeDesc.vectorOf t).elementType.isScalar = true := hscalar
    obtain ⟨hstring, hunion, hstruct, _⟩ := TypeDesc.isScalar_only helement
    have hvector : s.childKind? (.vectorOf t) = some (s.vectorKind (TypeDesc.vectorOf t).elementType) := rfl
    have helementUtype : (TypeDesc.vectorOf t).elementType.base ≠ .utype := hutype
    rw [hvector, vectorKind, if_neg helementUtype, hstring, hunion, hstruct]
    rfl
  | tableVector hd htable => rw [childKind?_vectorOf_record hd, htable]; rfl
  | structVector hd hfixed => rw [childKind?_vectorOf_record hd, hfixed]; rfl

/-- The plan adds values as they are to be added, and builds nothing for those that have no offset. -/
theorem slotKind_of_adds {kind : SlotKind} (h : kind.Adds s t) :
    s.slotKind t = kind ∧ (kind = .offset ↔ (s.childKind? t).isSome = true) := by
  cases h with
  | scalar hscalar hutype =>
    obtain ⟨hstring, hunion, hstruct, hvector⟩ := TypeDesc.isScalar_only hscalar
    have hnone : s.childKind? t = none := by simp [childKind?, hstring, hunion, hstruct, hvector]
    rw [slotKind, if_neg hutype, if_pos hscalar, hnone]
    exact ⟨rfl, by decide⟩
  | @unionType i =>
    have hnone : s.childKind? (.discriminant i) = none := rfl
    rw [hnone]
    exact ⟨rfl, by decide⟩
  | inlineStruct hd hfixed =>
    rw [childKind?_record hd, slotKind_record hd, hfixed]
    exact ⟨rfl, by decide⟩
  | offset hbuilds =>
    refine ⟨?_, by simp [childKind?_of_builds hbuilds]⟩
    cases hbuilds with
    | string | union | scalarVector | stringVector | tableVector | structVector | unionVector | unionTypeVector => rfl
    | table hd htable => rw [slotKind_record hd, htable]; rfl

/-- What is built is told by the type alone: it is what has no place in a slot. -/
theorem isSome_childKind?_of_adds {kind : SlotKind} (h : kind.Adds s t) :
    (s.childKind? t).isSome = (t.isString || t.isUnion || s.isTable t || t.isVector) := by
  have htable : ∀ {i : Nat} {d : StructDef}, s.structs[i]? = some d → s.isTable (.record i) = !d.fixed := by
    intro i d hd
    rw [isTable, structOf?_eq_some.2 ⟨i, rfl, hd⟩]
    rfl
  cases h with
  | scalar hscalar hutype =>
    obtain ⟨hstring, hunion, hstruct, hvector⟩ := TypeDesc.isScalar_only hscalar
    simp [childKind?, isTable, hstring, hunion, hstruct, hvector]
  | unionType => rfl
  | inlineStruct hd hfixed =>
    rw [childKind?_record hd, htable hd, hfixed]
    rfl
  | offset hbuilds =>
    rw [childKind?_of_builds hbuilds]
    cases hbuilds with
    | string | union | scalarVector | stringVector | tableVector | structVector | unionVector | unionTypeVector => rfl
    | table hd hopen => rw [htable hd, hopen]; rfl

/-- Of a type whose values can be added, the plan builds just what is to be built. -/
theorem childKind?_eq_some_of_adds {slot : SlotKind} (h : slot.Adds s t) {kind : ChildKind} :
    s.childKind? t = some kind ↔ kind.Builds s t := by
  refine ⟨fun hkind => ?_, childKind?_of_builds⟩
  have hoffset : slot = .offset := (slotKind_of_adds h).2.2 (by rw [hkind]; rfl)
  subst hoffset
  cases h with
  | @offset built _ hbuilds =>
    rw [childKind?_of_builds hbuilds, Option.some.injEq] at hkind
    exact hkind ▸ hbuilds

/-- The slots of union types are those of discriminants. -/
theorem slotKind_eq_unionType_iff (h : (s.slotKind t).Adds s t) : s.slotKind t = .unionType ↔ ∃ i, t = .discriminant i := by
  constructor
  · intro hkind
    rw [hkind] at h
    cases h with
    | unionType => exact ⟨_, rfl⟩
  · rintro ⟨i, rfl⟩
    rfl

/-- Only fixed structs are added by the way of structs. -/
theorem slotKind_eq_inlineStruct_iff (h : (s.slotKind t).Adds s t) :
    s.slotKind t = .inlineStruct ↔ ∃ i d, t = .record i ∧ s.structs[i]? = some d ∧ d.fixed = true := by
  constructor
  · intro hkind
    rw [hkind] at h
    cases h with
    | inlineStruct hd hfixed => exact ⟨_, _, rfl, hd, hfixed⟩
  · rintro ⟨i, d, rfl, hd, hfixed⟩
    exact (slotKind_of_adds (.inlineStruct hd hfixed)).1

/-- The records and the other types that a name denotes. -/
theorem exists_adds_of_denoted (h : Denoted s.enums s.structs.length t) : ∃ kind : SlotKind, kind.Adds s t := by
  cases h with
  | @plain b hb hu =>
    rcases hb with hb | rfl
    · exact ⟨_, .scalar hb hu⟩
    · exact ⟨_, .offset .string⟩
  | enumeration _ _ _ hint _ hu => exact ⟨_, .scalar (TypeDesc.isScalar_of_isInteger hint) hu⟩
  | @record i hi =>
    have hd := List.getElem?_eq_getElem hi
    cases hfixed : s.structs[i].fixed with
    | true => exact ⟨_, .inlineStruct hd hfixed⟩
    | false => exact ⟨_, .offset (.table hd hfixed)⟩
  | union => exact ⟨_, .offset .union⟩

/-- A vector is built beforehand, whatever its elements are. -/
theorem exists_builds_vectorOf (h : Denoted s.enums s.structs.length t) : ∃ kind : ChildKind, kind.Builds s (.vectorOf t) := by
  cases h with
  | @plain b hb hu =>
    rcases hb with hb | rfl
    · exact ⟨_, .scalarVector hb hu⟩
    · exact ⟨_, .stringVector⟩
  | enumeration _ _ _ hint _ hu => exact ⟨_, .scalarVector (TypeDesc.isScalar_of_isInteger hint) hu⟩
  | @record i hi =>
    have hd := List.getElem?_eq_getElem hi
    cases hfixed : s.structs[i].fixed with
    | true => exact ⟨_, .structVector hd hfixed⟩
    | false => exact ⟨_, .tableVector hd hfixed⟩
  | union => exact ⟨_, .unionVector⟩

/-- Values of every type that a field holds, other than arrays, can be added. -/
theorem exists_adds (h : Held s.enums s.structs.length t) (harray : t.isArray = false) : ∃ kind : SlotKind, kind.Adds s t := by
  cases h with
  | expressed h =>
    cases h with
    | name h => exact exists_adds_of_denoted h
    | vector h =>
      obtain ⟨kind, hkind⟩ := exists_builds_vectorOf h
      exact ⟨_, .offset hkind⟩
    | array h => cases harray
  | discriminant => exact ⟨_, .unionType⟩
  | discriminants => exact ⟨_, .offset .unionTypeVector⟩

end Schema

/-! ## Plans -/

/-- What a list of chosen values has for a key. -/
theorem lookup_filterMap {α β : Type} [DecidableEq α] (choose : α → Option β) {x : α} : ∀ {xs : List α}, x ∈ xs →
    (xs.filterMap fun y => (choose y).map (y, ·)).lookup x = choose x
  | y :: xs, hx => by
    by_cases hxy : x = y
    · subst hxy
      cases hchoose : choose x with
      | some b => simp [hchoose]
      | none =>
        have hnone : ∀ b, (x, b) ∉ xs.filterMap fun y => (choose y).map (y, ·) := by
          intro b hb
          obtain ⟨y, _, hy⟩ := List.mem_filterMap.1 hb
          obtain ⟨b', hb', heq⟩ := Option.map_eq_some_iff.1 hy
          cases heq
          rw [hchoose] at hb'
          cases hb'
        simp only [List.filterMap_cons, hchoose, Option.map_none]
        refine List.lookup_eq_none_iff.2 fun p hp => bne_iff_ne.2 ?_
        rintro rfl
        exact hnone p.2 hp
    · have hrest := lookup_filterMap choose ((List.mem_cons.1 hx).resolve_left hxy)
      rw [List.filterMap_cons]
      split
      next => exact hrest
      next b hb =>
        obtain ⟨b', _, rfl⟩ := Option.map_eq_some_iff.1 hb
        rw [List.lookup_cons, beq_eq_false_iff_ne.2 hxy]
        exact hrest

theorem map_filterMap_choose {α β : Type} (choose : α → Option β) (xs : List α) :
    (xs.filterMap fun y => (choose y).map (y, ·)).map (·.1) = xs.filter fun y => (choose y).isSome := by
  induction xs with
  | nil => rfl
  | cons x xs ih =>
    cases hx : choose x with
    | some b => simp [hx, ih]
    | none => simp [hx, ih]

namespace Loaded

variable {doc : SchemaDoc} {names : NameTable} {declared : List StructDef} {s : Schema}

/-- The fields of a table are different, since they are in different slots. -/
theorem table_fields_nodup (h : Loaded doc names declared s) {d : StructDef} (hd : d ∈ s.structs) (htable : d.fixed = false) :
    d.fields.Nodup := by
  obtain ⟨i, hi⟩ := List.mem_iff_getElem?.1 hd
  rw [List.Nodup, List.pairwise_iff_getElem]
  intro j k hj hk hjk heq
  have hslot := (h.table_slot hi htable (List.getElem?_eq_getElem hj)).2
  rw [heq, (h.table_slot hi htable (List.getElem?_eq_getElem hk)).2] at hslot
  exact Nat.ne_of_gt hjk hslot

/-- How a field of a table is added. -/
theorem exists_adds (h : Loaded doc names declared s) {d : StructDef} (hd : d ∈ s.structs) (htable : d.fixed = false)
    {f : FieldDef} (hf : f ∈ d.fields) : ∃ kind : SlotKind, kind.Adds s f.type := by
  have hstruct := Validity.checkStruct_eq_ok.1 ((Schema.validate_eq_ok.1 h.valid).2.2.1 d hd)
  have harray := (Validity.checkTableField_eq_ok.1 (hstruct.2.1 htable f hf)).1
  exact Schema.exists_adds ((h.declared_fields hd).held f hf).1 harray

end Loaded

/-- A plan that fits a table: what it builds beforehand and what it adds later belong together. -/
structure PackPlan.Fits (s : Schema) (d : StructDef) (p : PackPlan) : Prop where
  /-- The live fields are added in the order in which tables are built, each of them once. -/
  order : p.slots.map (·.1) = d.createOrder
  perm : (p.slots.map (·.1)).Perm d.liveFields
  nodup : d.liveFields.Nodup
  /-- What is added by its offset is what has been built. -/
  offset : ∀ f kind, (f, kind) ∈ p.slots → (kind = .offset ↔ (p.child? f).isSome = true)
  unionType : ∀ f kind, (f, kind) ∈ p.slots → (kind = .unionType ↔ ∃ i, f.type = .discriminant i)
  inlineStruct : ∀ f kind, (f, kind) ∈ p.slots →
    (kind = .inlineStruct ↔ ∃ i inner, f.type = .record i ∧ s.structs[i]? = some inner ∧ inner.fixed = true)
  /-- Strings, unions, tables and vectors are built, in the order in which the fields are declared. -/
  children : p.children.map (·.1) =
    d.liveFields.filter fun f => f.type.isString || f.type.isUnion || s.isTable f.type || f.type.isVector
  built : ∀ f kind, (f, kind) ∈ p.children → kind.Builds s f.type
  child : ∀ f ∈ d.liveFields, ∀ kind, p.child? f = some kind ↔ kind.Builds s f.type

namespace PackPlan

variable {s : Schema} {d : StructDef} {f : FieldDef}

/-- Every field is added once, in the order of creation. -/
theorem map_slots (s : Schema) (d : StructDef) : (PackPlan.of s d).slots.map (·.1) = d.createOrder := by
  simp only [PackPlan.of, List.map_map]
  exact List.map_id' _

/-- A slot is that of a live field, and its kind goes by the type of the field. -/
theorem mem_slots {kind : SlotKind} (h : (f, kind) ∈ (PackPlan.of s d).slots) : f ∈ d.liveFields ∧ kind = s.slotKind f.type := by
  obtain ⟨g, hg, heq⟩ := List.mem_map.1 h
  cases heq
  exact ⟨d.createOrder_perm.mem_iff.1 hg, rfl⟩

/-- What is made before the table belongs to a field of it that is not deprecated. -/
theorem mem_children {kind : ChildKind} (h : (f, kind) ∈ (PackPlan.of s d).children) :
    f ∈ d.liveFields ∧ s.childKind? f.type = some kind := by
  obtain ⟨g, hg, heq⟩ := List.mem_filterMap.1 h
  obtain ⟨built, hbuilt, heq⟩ := Option.map_eq_some_iff.1 heq
  cases heq
  exact ⟨hg, hbuilt⟩

/-- What is made for a field is told by its type. -/
theorem child?_of_live (h : f ∈ d.liveFields) : (PackPlan.of s d).child? f = s.childKind? f.type :=
  lookup_filterMap (fun f : FieldDef => s.childKind? f.type) h

end PackPlan

/-- The plan of every table of a loaded schema fits the table. -/
theorem PackPlan.of_fits {doc : SchemaDoc} {s : Schema} (h : Schema.ofDocument doc = .ok s) {d : StructDef} (hd : d ∈ s.structs)
    (htable : d.fixed = false) : (PackPlan.of s d).Fits s d := by
  obtain ⟨names, declared, hloaded⟩ := Schema.ofDocument_loaded h
  have hadds : ∀ f ∈ d.liveFields, (s.slotKind f.type).Adds s f.type := by
    intro f hf
    obtain ⟨kind, hkind⟩ := hloaded.exists_adds hd htable (List.mem_filter.1 hf).1
    exact (Schema.slotKind_of_adds hkind).1 ▸ hkind
  refine ⟨map_slots s d, map_slots s d ▸ d.createOrder_perm, (hloaded.table_fields_nodup hd htable).filter _, ?_, ?_, ?_, ?_, ?_, ?_⟩
  · intro f kind hmem
    obtain ⟨hlive, rfl⟩ := mem_slots hmem
    rw [child?_of_live hlive]
    exact (Schema.slotKind_of_adds (hadds f hlive)).2
  · intro f kind hmem
    obtain ⟨hlive, rfl⟩ := mem_slots hmem
    exact Schema.slotKind_eq_unionType_iff (hadds f hlive)
  · intro f kind hmem
    obtain ⟨hlive, rfl⟩ := mem_slots hmem
    exact Schema.slotKind_eq_inlineStruct_iff (hadds f hlive)
  · rw [PackPlan.of, map_filterMap_choose fun f : FieldDef => s.childKind? f.type]
    exact List.filter_congr fun f hf => Schema.isSome_childKind?_of_adds (hadds f hf)
  · intro f kind hmem
    obtain ⟨hlive, hkind⟩ := mem_children hmem
    exact (Schema.childKind?_eq_some_of_adds (hadds f hlive)).1 hkind
  · intro f hlive kind
    rw [child?_of_live hlive]
    exact Schema.childKind?_eq_some_of_adds (hadds f hlive)

/-- The table of the sample holds a fixed struct, a union and a vector of unions with their discriminants, an enumeration and a
vector of bytes. -/
theorem sampleDoc_packPlan : ∃ s d, Schema.ofDocument sampleDoc = .ok s ∧ s.structs[2]? = some d ∧ d.fixed = false ∧
    (PackPlan.of s d).children.map (fun c => (c.1.name, c.2)) =
      [("gear", .union), ("bag_type", .unionTypeVector), ("bag", .unionVector), ("raw", .scalarVector)] ∧
    (PackPlan.of s d).slots.map (fun c => (c.1.name, c.2)) = [("raw", .offset), ("bag", .offset), ("bag_type", .offset),
      ("gear", .offset), ("where", .inlineStruct), ("color", .scalar), ("gear_type", .unionType)] ∧
    (PackPlan.of s d).Fits s d := by
  obtain ⟨s, hs, hlook⟩ := Schema.exists_ofDocument sampleDoc
    (fun s => (s.structs[2]?.filter fun d => !d.fixed).map fun d =>
      ((PackPlan.of s d).children.map (fun c => (c.1.name, c.2)), (PackPlan.of s d).slots.map (fun c => (c.1.name, c.2))))
    (some ([("gear", .union), ("bag_type", .unionTypeVector), ("bag", .unionVector), ("raw", .scalarVector)],
      [("raw", .offset), ("bag", .offset), ("bag_type", .offset), ("gear", .offset), ("where", .inlineStruct), ("color", .scalar),
        ("gear_type", .unionType)])) (by decide +kernel)
  obtain ⟨d, hfound, hseen⟩ := Option.map_eq_some_iff.1 hlook
  obtain ⟨hd, htable⟩ := Option.filter_eq_some_iff.1 hfound
  have htable : d.fixed = false := by simpa using htable
  obtain ⟨hchildren, hslots⟩ := Prod.mk.inj hseen
  exact ⟨s, d, hs, hd, htable, hchildren, hslots, PackPlan.of_fits hs (List.mem_of_getElem? hd) htable⟩

end FlatSchema

import FlatSchema.Proofs.Names
import Mathlib.Logic.Equiv.Basic

/-!
# Definitions at other places

Definitions refer to each other by their places in the lists of a schema. When the lists are put into another order, every
reference has to be renamed (`Renaming`). A list that holds the elements of another at other places, each of them renamed, is
`Moved`; every permutation of a list moves it (`Moved.of_perm`). Look-ups along renamed references give renamed definitions.
-/

namespace FlatSchema

/-! ## Lists in another order -/

section Moved

variable {α β : Type} {p : Equiv.Perm Nat} {change : α → β} {xs : List α} {ys : List β}

/-- A list holds the elements of another at other places, each of them changed. -/
def Moved (p : Equiv.Perm Nat) (change : α → β) (xs : List α) (ys : List β) : Prop :=
  ∀ i, ys[p i]? = xs[i]?.map change

/-- What is at a new place comes from the old one. -/
theorem Moved.getElem?_symm (h : Moved p change xs ys) (j : Nat) : ys[j]? = xs[p.symm j]?.map change := by
  have hj := h (p.symm j)
  rwa [p.apply_symm_apply] at hj

/-- An optional place is followed in both lists. -/
theorem Moved.bind_getElem? (h : Moved p change xs ys) (place : Option Nat) :
    (place.map p).bind (ys[·]?) = (place.bind (xs[·]?)).map change := by
  cases place with
  | none => rfl
  | some i => exact h i

/-- What holds of all elements holds of all changed ones. -/
theorem Moved.forall_mem (h : Moved p change xs ys) {P : β → Prop} : (∀ y ∈ ys, P y) ↔ ∀ x ∈ xs, P (change x) := by
  constructor
  · intro hys x hx
    obtain ⟨i, hi⟩ := List.mem_iff_getElem?.1 hx
    refine hys _ (List.mem_of_getElem? (i := p i) ?_)
    rw [h i, hi, Option.map_some]
  · intro hxs y hy
    obtain ⟨j, hj⟩ := List.mem_iff_getElem?.1 hy
    rw [h.getElem?_symm] at hj
    obtain ⟨x, hx, rfl⟩ := Option.map_eq_some_iff.1 hj
    exact hxs x (List.mem_of_getElem? hx)

theorem Moved.lt_length_iff (h : Moved p change xs ys) {i : Nat} : p i < ys.length ↔ i < xs.length := by
  rw [← Nat.not_le, ← Nat.not_le, ← List.getElem?_eq_none_iff, h i, Option.map_eq_none_iff, List.getElem?_eq_none_iff]

/-- The lists are of one length: otherwise some place would lead out of one of them only. -/
theorem Moved.length_eq (h : Moved p change xs ys) : ys.length = xs.length := by
  have hperm : ((List.range xs.length).map p).Perm (List.range ys.length) := by
    refine (List.perm_ext_iff_of_nodup ?_ List.nodup_range).2 fun j => ?_
    · exact List.pairwise_map.2 (List.nodup_range.imp fun hne heq => hne (p.injective heq))
    · rw [List.mem_map, List.mem_range]
      constructor
      · rintro ⟨i, hi, rfl⟩
        exact h.lt_length_iff.2 (List.mem_range.1 hi)
      · intro hj
        refine ⟨p.symm j, List.mem_range.2 (h.lt_length_iff.1 ?_), p.apply_symm_apply j⟩
        rwa [p.apply_symm_apply]
  have hlen := hperm.length_eq
  rw [List.length_map, List.length_range, List.length_range] at hlen
  exact hlen.symm

/-- Elements that are not changed can be moved back. -/
theorem Moved.symm {ys : List α} (h : Moved p id xs ys) : Moved p.symm id ys xs := by
  intro j
  rw [Option.map_id, h.getElem?_symm, Option.map_id]
  rfl

/-- The places behind the first are moved. -/
def shift (p : Equiv.Perm Nat) : Equiv.Perm Nat where
  toFun
    | 0 => 0
    | i + 1 => p i + 1
  invFun
    | 0 => 0
    | i + 1 => p.symm i + 1
  left_inv i := by cases i <;> simp
  right_inv i := by cases i <;> simp

/-- A permutation of a list moves it. -/
theorem Moved.of_perm {ys : List α} (h : xs.Perm ys) : ∃ p, Moved p id xs ys := by
  induction h with
  | nil => exact ⟨Equiv.refl Nat, fun i => rfl⟩
  | @cons x xs ys _ ih =>
    obtain ⟨p, hp⟩ := ih
    refine ⟨shift p, fun i => ?_⟩
    cases i with
    | zero => rfl
    | succ i => exact hp i
  | swap x y l =>
    refine ⟨Equiv.swap 0 1, fun i => ?_⟩
    rcases i with _ | _ | i
    · simp
    · simp
    · rw [Equiv.swap_apply_of_ne_of_ne (by omega) (by omega), Option.map_id]
      rfl
  | trans _ _ ih ih' =>
    obtain ⟨p, hp⟩ := ih
    obtain ⟨q, hq⟩ := ih'
    refine ⟨p.trans q, fun i => ?_⟩
    rw [Equiv.trans_apply, hq, hp, Option.map_map]
    rfl

end Moved

/-! ## References to other places -/

/-- New places for the enums and for the structs of a schema. -/
structure Renaming where
  enum : Equiv.Perm Nat
  struct : Equiv.Perm Nat

/-- The way back. -/
def Renaming.symm (r : Renaming) : Renaming where
  enum := r.enum.symm
  struct := r.struct.symm

/-- The reference to the new place. -/
def Ref.rename (r : Renaming) : Ref → Ref
  | .enum i => .enum (r.enum i)
  | .struct i => .struct (r.struct i)

/-- A type with its references renamed. -/
def TypeDesc.rename (r : Renaming) (t : TypeDesc) : TypeDesc :=
  { t with structRef := t.structRef.map r.struct, enumRef := t.enumRef.map r.enum }

/-- A member with the type of its payload renamed. -/
def EnumVal.rename (r : Renaming) (v : EnumVal) : EnumVal := { v with payload := v.payload.rename r }

/-- An enum with its members renamed. The type below an enum refers to nothing. -/
def EnumDef.rename (r : Renaming) (e : EnumDef) : EnumDef := { e with vals := e.vals.map (EnumVal.rename r) }

/-- A field with its type and its nested root renamed. -/
def FieldDef.rename (r : Renaming) (f : FieldDef) : FieldDef :=
  { f with type := f.type.rename r, nested := f.nested.map r.struct }

/-- A struct with its fields renamed. -/
def StructDef.rename (r : Renaming) (d : StructDef) : StructDef := { d with fields := d.fields.map (FieldDef.rename r) }

/-- A document that declares the same at other places. -/
structure SchemaDoc.Reordered (r : Renaming) (doc doc' : SchemaDoc) : Prop where
  fileName : doc'.fileName = doc.fileName
  enums : Moved r.enum id doc.enums doc'.enums
  structs : Moved r.struct id doc.structs doc'.structs
  rootType : doc'.rootType = doc.rootType
  fileIdentifier : doc'.fileIdentifier = doc.fileIdentifier
  fileExtension : doc'.fileExtension = doc.fileExtension

/-- A schema that has the same definitions at other places: all references are renamed, and nothing else is changed. -/
structure Schema.Reordered (r : Renaming) (s s' : Schema) : Prop where
  fileName : s'.fileName = s.fileName
  enums : Moved r.enum (EnumDef.rename r) s.enums s'.enums
  structs : Moved r.struct (StructDef.rename r) s.structs s'.structs
  root : s'.root = s.root.map r.struct
  fileIdentifier : s'.fileIdentifier = s.fileIdentifier
  fileExtension : s'.fileExtension = s.fileExtension

variable {r : Renaming}

/-- A document can be put back into its old order. -/
theorem SchemaDoc.Reordered.symm {doc doc' : SchemaDoc} (h : doc.Reordered r doc') : doc'.Reordered r.symm doc :=
  ⟨h.fileName.symm, h.enums.symm, h.structs.symm, h.rootType.symm, h.fileIdentifier.symm, h.fileExtension.symm⟩

/-- A reference goes to the new place and back. -/
theorem Ref.rename_symm_rename (ref : Ref) : (ref.rename r.symm).rename r = ref := by
  cases ref with
  | enum i => exact congrArg Ref.enum (r.enum.apply_symm_apply i)
  | struct i => exact congrArg Ref.struct (r.struct.apply_symm_apply i)

theorem Ref.rename_inj {ref ref' : Ref} (h : ref.rename r = ref'.rename r) : ref = ref' := by
  cases ref <;> cases ref' <;> simp_all [Ref.rename]

/-! ## What renaming changes -/

theorem StructDef.rename_fields (d : StructDef) : (d.rename r).fields = d.fields.map (FieldDef.rename r) := rfl

theorem FieldDef.rename_type (f : FieldDef) : (f.rename r).type = f.type.rename r := rfl

theorem EnumDef.rename_vals (e : EnumDef) : (e.rename r).vals = e.vals.map (EnumVal.rename r) := rfl

namespace TypeDesc

variable (t : TypeDesc)

theorem rename_structRef : (t.rename r).structRef = t.structRef.map r.struct := rfl
theorem rename_enumRef : (t.rename r).enumRef = t.enumRef.map r.enum := rfl

@[simp] theorem rename_elementType : (t.rename r).elementType = t.elementType.rename r := rfl
@[simp] theorem rename_base : (t.rename r).base = t.base := rfl
@[simp] theorem rename_element : (t.rename r).element = t.element := rfl
@[simp] theorem rename_length : (t.rename r).length = t.length := rfl
@[simp] theorem rename_isScalar : (t.rename r).isScalar = t.isScalar := rfl
@[simp] theorem rename_isArray : (t.rename r).isArray = t.isArray := rfl
@[simp] theorem rename_isStruct : (t.rename r).isStruct = t.isStruct := rfl
@[simp] theorem rename_isUnion : (t.rename r).isUnion = t.isUnion := rfl
@[simp] theorem rename_isUnionVector : (t.rename r).isUnionVector = t.isUnionVector := rfl

end TypeDesc

end FlatSchema

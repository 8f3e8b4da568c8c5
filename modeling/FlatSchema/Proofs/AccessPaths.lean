import FlatSchema.Proofs.StructPlan
import Mathlib.Data.List.Basic

/-!
# Paths to the values of a fixed struct

From a fixed struct, paths of fields lead through the structs inside it to its values, which are scalars or arrays of scalars
(`AccessPath`). The parameters of a plan are these paths in declaration order: a parameter is made from its path alone
(`StructParam.along`), with the names of the fields joined, and with the last array on the path. A path has one array at most,
since structs in an array have none.
-/

namespace FlatSchema

/-! ## Structs inside structs -/

namespace FieldDef

/-- The struct that a field holds, as its value or as the elements of its array. -/
def inner? (s : Schema) (f : FieldDef) : Option StructDef :=
  if f.type.isStruct || (f.type.isArray && f.type.elementType.isStruct) then s.structOf? f.type else none

/-- Whether a field is a scalar or an array of scalars. -/
def IsValue (f : FieldDef) : Prop := f.type.isScalar = true ∨ f.type.isArray = true ∧ f.type.elementType.isScalar = true

/-- The type of the scalars of a field that is a scalar or an array of scalars. -/
def valueType (f : FieldDef) : TypeDesc := if f.type.isArray then f.type.elementType else f.type

/-- The array that a field at some place of a path puts around what is behind it. -/
def spanAt (index : Nat) (f : FieldDef) : Option ArraySpan :=
  if f.type.isArray then some { fieldIndex := index, length := f.type.length, ofStructs := f.type.elementType.isStruct }
  else none

variable {s : Schema} {f : FieldDef} {inner : StructDef}

theorem spanAt_of_array (ha : f.type.isArray = true) (index : Nat) :
    f.spanAt index = some ⟨index, f.type.length, f.type.elementType.isStruct⟩ := if_pos ha

theorem spanAt_of_no_array (ha : f.type.isArray = false) (index : Nat) : f.spanAt index = none :=
  if_neg (Bool.eq_false_iff.1 ha)

/-- A field leads to the struct that it is or that it is an array of. -/
theorem inner?_eq_some : f.inner? s = some inner ↔
    (f.type.isStruct = true ∨ f.type.isArray = true ∧ f.type.elementType.isStruct = true) ∧ s.structOf? f.type = some inner := by
  simp [inner?]

/-- A scalar or an array of scalars holds no struct. -/
theorem inner?_of_value (hvalue : f.IsValue) : f.inner? s = none := by
  refine if_neg fun hkind => ?_
  simp only [Bool.or_eq_true, Bool.and_eq_true] at hkind
  rcases hvalue, hkind with ⟨hscalar | ⟨ha, hscalar⟩, hs | ⟨ha', hs⟩⟩
  · exact TypeDesc.not_isStruct_of_isScalar hscalar hs
  · exact TypeDesc.not_isScalar_of_isArray ha' hscalar
  · exact TypeDesc.not_isStruct_of_isArray ha hs
  · exact TypeDesc.not_isStruct_of_isScalar hscalar hs

/-- A field is a struct, an array, or neither. -/
theorem kinds (hfound : f.type.isStruct = true → ∃ inner, s.structOf? f.type = some inner) :
    (f.type.isStruct = true ∧ f.type.isArray = false ∧ ∃ inner, s.structOf? f.type = some inner ∧ f.inner? s = some inner) ∨
    (f.type.isStruct = false ∧ f.type.isArray = true ∧
      f.inner? s = if f.type.elementType.isStruct then s.structOf? f.type.elementType else none) ∨
    (f.type.isStruct = false ∧ f.type.isArray = false ∧ f.inner? s = none) := by
  unfold inner?
  cases ha : f.type.isArray with
  | true =>
    have hs := Bool.eq_false_iff.2 (TypeDesc.not_isStruct_of_isArray ha)
    exact .inr (.inl ⟨hs, rfl, by rw [hs]; rfl⟩)
  | false =>
    cases hs : f.type.isStruct with
    | true =>
      obtain ⟨inner, hi⟩ := hfound hs
      exact .inl ⟨rfl, rfl, inner, hi, hi⟩
    | false => exact .inr (.inr ⟨rfl, rfl, rfl⟩)

/-- A field of a struct without arrays is no array and holds no struct with one. -/
theorem not_hasArray {d : StructDef} (hf : f ∈ d.fields) (hd : ¬HasArray s d) :
    f.type.isArray = false ∧ ∀ inner, f.inner? s = some inner → ¬HasArray s inner := by
  have hno : f.type.isArray = false := Bool.eq_false_iff.2 fun ha => hd (.here hf ha)
  refine ⟨hno, fun inner hi hinner => ?_⟩
  obtain ⟨hs | ⟨ha, _⟩, hi⟩ := inner?_eq_some.1 hi
  · exact hd (.inside hf hs hi hinner)
  · exact Bool.eq_false_iff.1 hno ha

end FieldDef

namespace StructPlan

variable {s : Schema} {f : FieldDef}

/-- The parameters of a field, or of an element of the array that it is. -/
def elementParams (s : Schema) (depth : Nat) (path : List FieldDef) (span : Option ArraySpan) (name : String) (f : FieldDef) :
    List StructParam :=
  match f.inner? s with
  | some inner => paramsOf s depth inner (name ++ "_") (path ++ [f]) span
  | none => [{ name, path := path ++ [f], type := f.valueType, span }]

/-- The steps that write a field, or an element of the array that it is. -/
def elementOps (s : Schema) (depth : Nat) (inArray : Bool) (name : String) (f : FieldDef) : List BuildOp :=
  match f.inner? s with
  | some inner => opsOf s depth inner (name ++ "_") inArray
  | none => [.put name f.valueType inArray]

/-- The parameters of a field stand in the array that it is, or in the array around it. -/
theorem fieldParams_eq (hfound : f.type.isStruct = true → ∃ inner, s.structOf? f.type = some inner) (depth : Nat)
    (path : List FieldDef) (span : Option ArraySpan) (name : String) :
    fieldParams s depth path span name f = elementParams s depth path ((f.spanAt path.length).or span) name f := by
  unfold fieldParams elementParams FieldDef.spanAt FieldDef.valueType
  rcases FieldDef.kinds hfound with ⟨hs, ha, inner, hi, hinner⟩ | ⟨hs, ha, hinner⟩ | ⟨hs, ha, hinner⟩
  · simp [hs, ha, hi, hinner]
  · rw [hs, ha, hinner]
    cases f.type.elementType.isStruct with
    | false => rfl
    | true => cases s.structOf? f.type.elementType <;> rfl
  · simp [hs, ha, hinner]

/-- The steps of a field write it once, or for every element of an array. -/
theorem valueOps_eq (hfound : f.type.isStruct = true → ∃ inner, s.structOf? f.type = some inner) (depth : Nat) (inArray : Bool)
    (name : String) :
    valueOps s depth inArray name f.type =
      if f.type.isArray then .beginArray f.type.length :: elementOps s depth true name f ++ [.endArray]
      else elementOps s depth inArray name f := by
  unfold valueOps elementOps FieldDef.valueType
  rcases FieldDef.kinds hfound with ⟨hs, ha, inner, hi, hinner⟩ | ⟨hs, ha, hinner⟩ | ⟨hs, ha, hinner⟩
  · simp [hs, ha, hi, hinner]
  · rw [hs, ha, hinner]
    cases f.type.elementType.isStruct with
    | false => rfl
    | true => cases s.structOf? f.type.elementType <;> rfl
  · simp [hs, ha, hinner]

end StructPlan

namespace Loaded

variable {doc : SchemaDoc} {names : NameTable} {declared : List StructDef} {s : Schema} {d : StructDef} {f : FieldDef}

/-- A field that is a struct has one. -/
theorem struct_found (h : Loaded doc names declared s) (hd : d ∈ s.structs) (hfixed : d.fixed = true) (hf : f ∈ d.fields)
    (hs : f.type.isStruct = true) : ∃ inner, s.structOf? f.type = some inner := by
  rcases h.element_flat hd hfixed hf with ⟨_, ⟨hscalar, _⟩ | ⟨_, inner, hi, _⟩⟩ | ⟨ha, _⟩
  · exact absurd hs (TypeDesc.not_isStruct_of_isScalar hscalar)
  · exact ⟨inner, hi⟩
  · exact absurd hs (TypeDesc.not_isStruct_of_isArray ha)

/-- What holds no struct is a scalar or an array of scalars. -/
theorem value_of_inner?_none (h : Loaded doc names declared s) (hd : d ∈ s.structs) (hfixed : d.fixed = true)
    (hf : f ∈ d.fields) (hnone : f.inner? s = none) : f.IsValue := by
  rcases h.element_flat hd hfixed hf with ⟨_, ⟨hscalar, _⟩ | ⟨hs, inner, hi, _⟩⟩ | ⟨ha, ⟨hscalar, _⟩ | ⟨hs, inner, hi, _⟩⟩
  · exact .inl hscalar
  · rw [FieldDef.inner?_eq_some.2 ⟨.inl hs, hi⟩] at hnone
    cases hnone
  · exact .inr ⟨ha, hscalar⟩
  · rw [FieldDef.inner?_eq_some.2 ⟨.inr ⟨ha, hs⟩, hi⟩] at hnone
    cases hnone

/-- A struct inside a fixed struct is fixed, and inside an array it holds no other array. -/
theorem inner_fixed (h : Loaded doc names declared s) (hd : d ∈ s.structs) (hfixed : d.fixed = true) (hf : f ∈ d.fields)
    {inner : StructDef} (hi : f.inner? s = some inner) :
    inner ∈ s.structs ∧ inner.fixed = true ∧ (f.type.isArray = true → ¬HasArray s inner) := by
  obtain ⟨hkind, hi⟩ := FieldDef.inner?_eq_some.1 hi
  refine ⟨Schema.mem_of_structOf? hi, ?_, fun ha => (h.array hd hf ha).2.2 inner hi⟩
  rcases hkind with hs | ⟨ha, hs⟩
  · exact (Schema.fixedFields_of_validate h.valid).inner hd hfixed hf hs hi
  · exact ((h.array hd hf ha).2.1.inner hs hi).2

/-- What holds of a struct at some depth if it holds of the structs inside it one deeper, holds at the depth of plans. The
induction is on the depth, which stays above the ranks of the structs inside. -/
theorem flatten_induction (h : Loaded doc names declared s) {motive : Nat → StructDef → Prop}
    (step : ∀ (depth : Nat) (d : StructDef), d ∈ s.structs → d.fixed = true →
      (∀ f ∈ d.fields, ∀ inner, f.inner? s = some inner → motive depth inner) → motive (depth + 1) d)
    (hd : d ∈ s.structs) (hfixed : d.fixed = true) : motive (s.structs.length + 1) d := by
  obtain ⟨rank, hrank⟩ := h.placed.ranked
  have hall : ∀ (depth i : Nat) (d : StructDef), rank i < depth → s.structs[i]? = some d → d.fixed = true → motive depth d := by
    intro depth
    induction depth with
    | zero => exact fun i d hlt _ _ => absurd hlt (Nat.not_lt_zero _)
    | succ depth ih =>
      intro i d hlt hi hfixed
      have hd := List.mem_of_getElem? hi
      refine step depth d hd hfixed fun f hf inner hinner => ?_
      obtain ⟨_, hinnerFixed, _⟩ := h.inner_fixed hd hfixed hf hinner
      obtain ⟨hkind, hinner⟩ := FieldDef.inner?_eq_some.1 hinner
      obtain ⟨j, hj, hget⟩ := Schema.structOf?_eq_some.1 hinner
      have hpart : (f.type.isStruct || f.type.isArray) = true := by
        rcases hkind with hs | ⟨ha, _⟩
        · rw [hs, Bool.true_or]
        · rw [ha, Bool.or_true]
      have hless := hrank.part i d hi hfixed f hf hpart j inner hj hget hinnerFixed
      exact ih j inner (by omega) hget hinnerFixed
  obtain ⟨i, hi⟩ := List.mem_iff_getElem?.1 hd
  exact hall _ i d (Nat.lt_succ_of_lt (hrank.lt i d hi hfixed)) hi hfixed

end Loaded

/-! ## Paths -/

/-- The fields from a struct down to a scalar or an array of scalars. -/
inductive AccessPath (s : Schema) : StructDef → List FieldDef → Prop
  | value {d : StructDef} {f : FieldDef} (hf : f ∈ d.fields) (hvalue : f.IsValue) : AccessPath s d [f]
  | inside {d inner : StructDef} {f : FieldDef} {path : List FieldDef} (hf : f ∈ d.fields) (hi : f.inner? s = some inner)
    (h : AccessPath s inner path) : AccessPath s d (f :: path)

/-- An array is the only one on a path, and the path goes on behind it exactly if the array holds structs. -/
def ArraySpan.OnPath (array : ArraySpan) (path : List FieldDef) : Prop :=
  ∃ before f behind, path = before ++ f :: behind ∧ array.fieldIndex = before.length ∧ f.type.isArray = true ∧
    array.length = f.type.length ∧ (array.ofStructs = true ↔ behind ≠ []) ∧ ∀ g ∈ before ++ behind, g.type.isArray = false

/-- The last array on a path whose first field has some place. -/
def spanOf : Nat → List FieldDef → Option ArraySpan
  | _, [] => none
  | index, f :: rest => (spanOf (index + 1) rest).or (f.spanAt index)

/-- The names along a path, joined. -/
def pathName (path : List FieldDef) : String := "_".intercalate (path.map (·.name))

theorem pathName_singleton (f : FieldDef) : pathName [f] = f.name := String.intercalate_singleton

/-- The name of a path is that of its first field and that of the rest. -/
theorem pathName_cons {path : List FieldDef} (hne : path ≠ []) (f : FieldDef) :
    pathName (f :: path) = f.name ++ "_" ++ pathName path :=
  String.intercalate_cons_of_ne_nil (by simpa using hne)

/-- The parameter at the end of a path, seen from a struct inside others. -/
def StructParam.along (lead : String) (path : List FieldDef) (span : Option ArraySpan) (rest : List FieldDef) : StructParam where
  name := lead ++ pathName rest
  path := path ++ rest
  type := (rest.getLast?.map FieldDef.valueType).getD (.plain .none)
  span := (spanOf path.length rest).or span

namespace StructParam

variable {lead : String} {path : List FieldDef} {span : Option ArraySpan}

theorem along_singleton (f : FieldDef) : along lead path span [f] =
    { name := lead ++ f.name, path := path ++ [f], type := f.valueType, span := (f.spanAt path.length).or span } := by
  simp [along, pathName_singleton, spanOf]

/-- A parameter is found along its path one field after the other. -/
theorem along_cons (f : FieldDef) {rest : List FieldDef} (hne : rest ≠ []) : along lead path span (f :: rest) =
    along (lead ++ f.name ++ "_") (path ++ [f]) ((f.spanAt path.length).or span) rest := by
  simp [along, pathName_cons hne, spanOf, Option.or_assoc, String.append_assoc, List.getLast?_cons_of_ne_nil hne]

/-- A parameter has the type of the field at the end of its path. -/
theorem field?_along {rest : List FieldDef} (hne : rest ≠ []) :
    (along lead path span rest).field?.map FieldDef.valueType = some (along lead path span rest).type := by
  have hlast := List.getLast?_eq_some_getLast hne
  simp [along, field?, List.getLast?_append, hlast]

end StructParam

namespace AccessPath

variable {s : Schema} {d : StructDef} {path : List FieldDef}

/-- A path has at least one field. -/
theorem ne_nil (h : AccessPath s d path) : path ≠ [] := by
  cases h with
  | value | inside => exact List.cons_ne_nil _ _

/-- Paths from a struct without arrays have none. -/
theorem no_array (h : AccessPath s d path) (hd : ¬HasArray s d) (index : Nat) :
    spanOf index path = none ∧ ∀ f ∈ path, f.type.isArray = false := by
  induction h generalizing index with
  | value hf _ =>
    obtain ⟨hno, _⟩ := FieldDef.not_hasArray hf hd
    refine ⟨?_, fun g hg => List.mem_singleton.1 hg ▸ hno⟩
    rw [spanOf, spanOf, FieldDef.spanAt_of_no_array hno]
    rfl
  | inside hf hi _ ih =>
    obtain ⟨hno, hinner⟩ := FieldDef.not_hasArray hf hd
    obtain ⟨hspan, hrest⟩ := ih (hinner _ hi) (index + 1)
    refine ⟨?_, List.forall_mem_cons.2 ⟨hno, hrest⟩⟩
    rw [spanOf, hspan, FieldDef.spanAt_of_no_array hno]
    rfl

end AccessPath

namespace Loaded

variable {doc : SchemaDoc} {names : NameTable} {declared : List StructDef} {s : Schema}

/-- A path from a fixed struct has no array, or one that the parameter at its end is told about. -/
theorem path_span (h : Loaded doc names declared s) {d : StructDef} {path : List FieldDef} (hpath : AccessPath s d path) :
    d ∈ s.structs → d.fixed = true → ∀ index,
      (spanOf index path = none ∧ ∀ f ∈ path, f.type.isArray = false) ∨
      ∃ array : ArraySpan, spanOf index path = some { array with fieldIndex := index + array.fieldIndex } ∧ array.OnPath path := by
  induction hpath with
  | @value d f hf hvalue =>
    intro _ _ index
    rw [spanOf, spanOf, Option.none_or]
    cases ha : f.type.isArray with
    | false => exact .inl ⟨FieldDef.spanAt_of_no_array ha _, fun g hg => List.mem_singleton.1 hg ▸ ha⟩
    | true =>
      rcases hvalue with hscalar | ⟨_, hscalar⟩
      · exact absurd hscalar (TypeDesc.not_isScalar_of_isArray ha)
      · have hkind := TypeDesc.not_isStruct_of_isScalar hscalar
        exact .inr ⟨⟨0, f.type.length, f.type.elementType.isStruct⟩, FieldDef.spanAt_of_array ha index, [], f, [], rfl, rfl, ha,
          rfl, ⟨fun hs => absurd hs hkind, fun hne => absurd rfl hne⟩, fun g hg => absurd hg List.not_mem_nil⟩
  | @inside d inner f path hf hi hpath ih =>
    intro hd hfixed index
    obtain ⟨hinner, hinnerFixed, hflat⟩ := h.inner_fixed hd hfixed hf hi
    rw [spanOf]
    cases ha : f.type.isArray with
    | false =>
      rw [FieldDef.spanAt_of_no_array ha, Option.or_none]
      rcases ih hinner hinnerFixed (index + 1) with ⟨hspan, hrest⟩ | ⟨array, hspan, before, g, behind, rfl, hindex, hg⟩
      · exact .inl ⟨hspan, List.forall_mem_cons.2 ⟨ha, hrest⟩⟩
      · obtain ⟨hgarray, hlength, hstructs, hrest⟩ := hg
        refine .inr ⟨{ array with fieldIndex := array.fieldIndex + 1 }, ?_, f :: before, g, behind, rfl, ?_, hgarray, hlength,
          hstructs, List.forall_mem_cons.2 ⟨ha, hrest⟩⟩
        · rw [hspan, Nat.add_assoc, Nat.add_comm 1]
        · rw [List.length_cons, ← hindex]
    | true =>
      -- the structs in the array hold no other array
      obtain ⟨hspan, hrest⟩ := hpath.no_array (hflat ha) (index + 1)
      have hkind : f.type.elementType.isStruct = true := by
        rcases (FieldDef.inner?_eq_some.1 hi).1 with hs | ⟨_, hs⟩
        · exact absurd hs (TypeDesc.not_isStruct_of_isArray ha)
        · exact hs
      rw [hspan, Option.none_or]
      exact .inr ⟨⟨0, f.type.length, f.type.elementType.isStruct⟩, FieldDef.spanAt_of_array ha index, [], f, path, rfl, rfl, ha,
        rfl, ⟨fun _ => hpath.ne_nil, fun _ => hkind⟩, hrest⟩

/-- The array of a path from a fixed struct is the only one on it. -/
theorem spanOf_onPath (h : Loaded doc names declared s) {d : StructDef} (hd : d ∈ s.structs) (hfixed : d.fixed = true)
    {path : List FieldDef} (hpath : AccessPath s d path) :
    (spanOf 0 path = none → ∀ f ∈ path, f.type.isArray = false) ∧ ∀ array, spanOf 0 path = some array → array.OnPath path := by
  rcases h.path_span hpath hd hfixed 0 with ⟨hnone, hno⟩ | ⟨array, harray, hon⟩
  · refine ⟨fun _ => hno, fun array harray => ?_⟩
    rw [hnone] at harray
    cases harray
  · rw [Nat.zero_add] at harray
    refine ⟨fun hnone => ?_, fun array' harray' => ?_⟩
    · rw [harray] at hnone
      cases hnone
    · cases harray.symm.trans harray'
      exact hon

end Loaded

/-! ## The paths of a plan -/

namespace StructPlan

/-- The paths from a struct to its values, in declaration order. -/
def pathsOf (s : Schema) : Nat → StructDef → List (List FieldDef)
  | 0, _ => []
  | depth + 1, d => d.fields.flatMap fun f =>
    match f.inner? s with
    | some inner => (pathsOf s depth inner).map (f :: ·)
    | none => [[f]]

/-- The paths that begin with a field. -/
def fieldPaths (s : Schema) (depth : Nat) (f : FieldDef) : List (List FieldDef) :=
  match f.inner? s with
  | some inner => (pathsOf s depth inner).map (f :: ·)
  | none => [[f]]

theorem pathsOf_succ (s : Schema) (depth : Nat) (d : StructDef) :
    pathsOf s (depth + 1) d = d.fields.flatMap (fieldPaths s depth) := rfl

/-- The paths through a field begin with it. -/
theorem head?_of_mem_fieldPaths {s : Schema} {depth : Nat} {f : FieldDef} {path : List FieldDef}
    (h : path ∈ fieldPaths s depth f) : path.head? = some f := by
  unfold fieldPaths at h
  split at h
  next =>
    obtain ⟨rest, _, rfl⟩ := List.mem_map.1 h
    rfl
  next =>
    rw [List.mem_singleton.1 h]
    rfl

/-- The paths of a struct have at least one field. -/
theorem ne_nil_of_mem_pathsOf {s : Schema} {depth : Nat} {d : StructDef} {path : List FieldDef}
    (h : path ∈ pathsOf s depth d) : path ≠ [] := by
  cases depth with
  | zero => exact absurd h List.not_mem_nil
  | succ depth =>
    obtain ⟨f, _, hpath⟩ := List.mem_flatMap.1 h
    rintro rfl
    cases head?_of_mem_fieldPaths hpath

end StructPlan

namespace Loaded

variable {doc : SchemaDoc} {names : NameTable} {declared : List StructDef} {s : Schema} {d : StructDef}

/-- The walk finds all paths, and nothing else. -/
theorem mem_pathsOf (h : Loaded doc names declared s) (hd : d ∈ s.structs) (hfixed : d.fixed = true) :
    ∀ path, path ∈ StructPlan.pathsOf s (s.structs.length + 1) d ↔ AccessPath s d path := by
  refine h.flatten_induction (motive := fun depth d => ∀ path, path ∈ StructPlan.pathsOf s depth d ↔ AccessPath s d path)
    (fun depth d hd hfixed ih path => ?_) hd hfixed
  rw [StructPlan.pathsOf_succ, List.mem_flatMap]
  constructor
  · rintro ⟨f, hf, hpath⟩
    cases hi : f.inner? s with
    | none =>
      rw [StructPlan.fieldPaths, hi] at hpath
      rw [List.mem_singleton.1 hpath]
      exact .value hf (h.value_of_inner?_none hd hfixed hf hi)
    | some inner =>
      rw [StructPlan.fieldPaths, hi] at hpath
      obtain ⟨rest, hrest, rfl⟩ := List.mem_map.1 hpath
      exact .inside hf hi ((ih f hf inner hi rest).1 hrest)
  · intro hpath
    cases hpath with
    | @value _ f hf hvalue =>
      refine ⟨f, hf, ?_⟩
      rw [StructPlan.fieldPaths, FieldDef.inner?_of_value hvalue]
      exact List.mem_singleton_self _
    | @inside _ inner f rest hf hi hrest =>
      refine ⟨f, hf, ?_⟩
      rw [StructPlan.fieldPaths, hi]
      exact List.mem_map.2 ⟨rest, (ih f hf inner hi rest).2 hrest, rfl⟩

/-- The parameters of a plan are made from its paths. -/
theorem paramsOf_eq (h : Loaded doc names declared s) (hd : d ∈ s.structs) (hfixed : d.fixed = true) :
    ∀ lead path span, StructPlan.paramsOf s (s.structs.length + 1) d lead path span =
      (StructPlan.pathsOf s (s.structs.length + 1) d).map (StructParam.along lead path span) := by
  refine h.flatten_induction (motive := fun depth d => ∀ lead path span,
    StructPlan.paramsOf s depth d lead path span = (StructPlan.pathsOf s depth d).map (StructParam.along lead path span))
    (fun depth d hd hfixed ih lead path span => ?_) hd hfixed
  rw [StructPlan.paramsOf_succ, StructPlan.pathsOf_succ, List.map_flatMap]
  refine List.flatMap_congr fun f hf => ?_
  rw [StructPlan.fieldParams_eq (h.struct_found hd hfixed hf), StructPlan.elementParams, StructPlan.fieldPaths]
  cases hi : f.inner? s with
  | none => exact congrArg (fun p => [p]) (StructParam.along_singleton f).symm
  | some inner =>
    dsimp only
    rw [ih f hf inner hi, List.map_map]
    refine List.map_congr_left fun rest hrest => ?_
    exact (StructParam.along_cons f (StructPlan.ne_nil_of_mem_pathsOf hrest)).symm

/-- The parameters of a struct are found along its paths. -/
theorem params_eq (h : Loaded doc names declared s) (hd : d ∈ s.structs) (hfixed : d.fixed = true) :
    (StructPlan.of s d).params = (StructPlan.pathsOf s (s.structs.length + 1) d).map (StructParam.along "" [] none) :=
  h.paramsOf_eq hd hfixed "" [] none

/-- The paths of the parameters of a plan are the paths to the values of the struct. -/
theorem accessPath_iff (h : Loaded doc names declared s) (hd : d ∈ s.structs) (hfixed : d.fixed = true) (path : List FieldDef) :
    AccessPath s d path ↔ ∃ p ∈ (StructPlan.of s d).params, p.path = path := by
  rw [← h.mem_pathsOf hd hfixed, h.params_eq hd hfixed]
  simp [StructParam.along]

/-- A parameter has the type of the values at the end of its path, and its array is the only one on its path. -/
theorem param_onPath (h : Loaded doc names declared s) (hd : d ∈ s.structs) (hfixed : d.fixed = true) {p : StructParam}
    (hp : p ∈ (StructPlan.of s d).params) :
    p.field?.map FieldDef.valueType = some p.type ∧
      (p.span = none → ∀ f ∈ p.path, f.type.isArray = false) ∧ ∀ array, p.span = some array → array.OnPath p.path := by
  rw [h.params_eq hd hfixed] at hp
  obtain ⟨path, hpath, rfl⟩ := List.mem_map.1 hp
  have hpath := (h.mem_pathsOf hd hfixed path).1 hpath
  have hspan : (StructParam.along "" [] none path).span = spanOf 0 path := Option.or_none
  refine ⟨StructParam.field?_along hpath.ne_nil, ?_⟩
  rw [hspan]
  exact h.spanOf_onPath hd hfixed hpath

end Loaded

end FlatSchema

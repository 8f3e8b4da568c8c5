import FlatSchema.Proofs.CodeShape
import FlatSchema.Proofs.Cycles
import FlatSchema.Proofs.StructPlan

/-!
# The bytes of a plan

The plan of a fixed struct has the structs inside it flattened, and the bytes of its steps are counted with the lengths of the loops
around them. The rules of a schema only compare the size of a struct with the sizes that its fields say they have. Steps without an
open loop count on their own (`counts_of_nest`), so the two agree by induction on the rank of the struct, for every schema that
follows the rules and has no cycle of structs (`byteCount_eq_byteSize`): nothing is asked of where the schema comes from.
-/

namespace FlatSchema

namespace StructPlan

/-! ## Counting -/

/-- Steps that count as often as the loops around them say, whatever follows them. -/
def Counts (ops : List BuildOp) : Prop := ∀ (times : Nat) (repeats : List Nat) (rest : List BuildOp),
  bytesOf (times :: repeats) (ops ++ rest) = bytesOf [1] ops * times + bytesOf (times :: repeats) rest

/-- A loop counts its body for every element. -/
theorem Counts.loop {body : List BuildOp} (h : Counts body) (n : Nat) :
    bytesOf [1] (.beginArray n :: body ++ [.endArray]) = bytesOf [1] body * n := by
  simp only [List.cons_append, bytesOf, List.headD_cons, h n, Nat.one_mul, Nat.add_zero]

/-- Steps without an open loop count on their own. -/
theorem counts_of_nest {ops : List BuildOp} (h : BuildOp.Nest ops) : Counts ops := by
  induction h with
  | nil | prep | pad | put =>
    intro times repeats rest
    simp [bytesOf]
  | @append a b _ _ iha ihb =>
    intro times repeats rest
    rw [List.append_assoc, iha, ihb, iha, Nat.mul_one, Nat.add_mul, Nat.add_assoc]
  | @loop n body _ ih =>
    intro times repeats rest
    have houter : bytesOf (times :: repeats) (.beginArray n :: body ++ [.endArray] ++ rest) =
        bytesOf [1] body * (times * n) + bytesOf (times :: repeats) rest := by
      simp only [List.cons_append, List.append_assoc, List.nil_append, bytesOf, List.headD_cons, ih (times * n), List.tail_cons]
    rw [houter, ih.loop, Nat.mul_assoc, Nat.mul_comm n]

/-- Padding has no loops. -/
theorem nest_pad (n : Nat) : BuildOp.Nest (if n = 0 then [] else [.pad n]) := by
  split
  · exact .nil
  · exact .pad n

/-- Padding counts with as many bytes as it has. -/
theorem bytesOf_pad (n : Nat) {ops : List BuildOp} :
    bytesOf [1] ((if n = 0 then [] else [.pad n]) ++ ops) = bytesOf [1] ops + n := by
  split
  · next hn => rw [hn, List.nil_append, Nat.add_zero]
  · rw [List.singleton_append, bytesOf, List.headD_cons, Nat.mul_one, Nat.add_comm]

/-- The steps of fields in a row count as the fields do together, in whichever direction they are taken. -/
theorem bytesOf_flatMap_reverse {ops : FieldDef → List BuildOp} {bytes : FieldDef → Nat} : ∀ {fields : List FieldDef},
    (∀ f ∈ fields, BuildOp.Nest (ops f)) → (∀ f ∈ fields, bytesOf [1] (ops f) = bytes f) →
    bytesOf [1] (fields.reverse.flatMap ops) = (fields.map bytes).foldr (· + ·) 0
  | [], _, _ => rfl
  | f :: rest, hnest, hbytes => by
    have hrest := bytesOf_flatMap_reverse (fun g hg => hnest g (List.mem_cons_of_mem f hg))
      fun g hg => hbytes g (List.mem_cons_of_mem f hg)
    have hnested : BuildOp.Nest (rest.reverse.flatMap ops) :=
      .flatMap fun g hg => hnest g (List.mem_cons_of_mem f (List.mem_reverse.1 hg))
    rw [List.reverse_cons, List.flatMap_append, List.flatMap_singleton, counts_of_nest hnested, hrest,
      hbytes f List.mem_cons_self, Nat.mul_one, List.map_cons, List.foldr_cons, Nat.add_comm]

end StructPlan

/-! ## Sizes -/

/-- An array is as large as its elements together. -/
theorem Schema.inlineSize_array {s : Schema} {t : TypeDesc} (h : t.isArray = true) (he : t.elementType.isArray = false) :
    s.inlineSize t = s.inlineSize t.elementType * t.length := by
  have helem : t.element ≠ .array := fun hb => by
    rw [TypeDesc.isArray_iff.2 (show t.elementType.base = .array from hb)] at he
    cases he
  rw [(Schema.inline_flat he).1]
  unfold Schema.inlineSize FlatSchema.inlineSize
  rw [if_pos h, if_neg helem]

/-- What may stand in a fixed struct by itself or as the element of an array: a scalar, or a fixed struct. -/
def TypeDesc.Inline (s : Schema) (t : TypeDesc) : Prop :=
  t.isScalar = true ∨ (t.isStruct = true ∧ ∃ d, s.structOf? t = some d ∧ d.fixed = true)

/-- What lies inline as one value is no array. -/
theorem TypeDesc.Inline.not_isArray {s : Schema} {t : TypeDesc} (h : t.Inline s) : t.isArray = false := by
  rw [Bool.eq_false_iff]
  intro ha
  rcases h with hscalar | ⟨hs, _⟩
  · exact TypeDesc.not_isScalar_of_isArray ha hscalar
  · exact TypeDesc.not_isStruct_of_isArray ha hs

/-- The fields of fixed structs hold such values, or arrays of them. -/
theorem Schema.inline_of_validate {s : Schema} (h : s.validate = .ok ()) {d : StructDef} (hd : d ∈ s.structs)
    (hfixed : d.fixed = true) {f : FieldDef} (hf : f ∈ d.fields) :
    f.type.Inline s ∨ (f.type.isArray = true ∧ f.type.elementType.Inline s) := by
  have hstruct := (Schema.validate_eq_ok.1 h).2.2.1 d hd
  have hcheck := (Validity.checkFixed_eq_ok.1 ((Validity.checkStruct_eq_ok.1 hstruct).1 hfixed)).2.1 f hf
  obtain ⟨hkind, _, helement, _⟩ := Validity.checkStructField_eq_ok.1 hcheck
  simp only [Bool.or_eq_true, Bool.and_eq_true] at hkind
  rcases hkind with (hscalar | ⟨hs, hinner⟩) | harray
  · exact .inl (.inl hscalar)
  · exact .inl (.inr ⟨hs, Schema.fixed_of_isFixedStruct hinner⟩)
  · exact .inr ⟨harray, (Validity.arrayElementOk_spec (helement harray)).1⟩

namespace StructPlan

/-! ## The plan of a struct -/

variable {s : Schema}

/-- In the steps for a value every loop that begins ends. -/
theorem nest_valueOps (s : Schema) (depth : Nat) (inArray : Bool) (name : String) (t : TypeDesc) :
    BuildOp.Nest (valueOps s depth inArray name t) := by
  unfold valueOps
  split
  · split
    · exact nest_opsOf s depth _ _ _
    · exact .nil
  · split
    · refine .loop _ ?_
      split
      · exact nest_opsOf s depth _ _ _
      · exact .put _ _ _
    · exact .put _ _ _

/-- The steps of a field count as many bytes as the field takes, if those of the structs that it may hold do. -/
theorem bytesOf_valueOps {t : TypeDesc} (hkind : t.Inline s ∨ (t.isArray = true ∧ t.elementType.Inline s)) {depth : Nat}
    (hinner : (t.isStruct || t.isArray) = true → ∀ inner, s.structOf? t = some inner → inner.fixed = true →
      ∀ lead inArray, bytesOf [1] (opsOf s depth inner lead inArray) = inner.byteSize) (inArray : Bool) (name : String) :
    bytesOf [1] (valueOps s depth inArray name t) = s.inlineSize t := by
  have hput : ∀ (name : String) (t : TypeDesc) (inArray : Bool), bytesOf [1] [.put name t inArray] = t.base.size := fun _ _ _ => by
    rw [bytesOf, List.headD_cons, Nat.mul_one, bytesOf, Nat.add_zero]
  unfold valueOps
  rcases hkind with hone | ⟨ha, hone⟩
  · have ha := hone.not_isArray
    rcases hone with hscalar | ⟨hs, inner, hi, hfixed⟩
    · rw [if_neg (TypeDesc.not_isStruct_of_isScalar hscalar), ha, if_neg Bool.false_ne_true, hput, (Schema.inline_scalar hscalar).1]
    · rw [if_pos hs, hi, (Schema.inline_struct hs hi hfixed).1]
      exact hinner (by rw [hs, Bool.true_or]) inner hi hfixed _ _
  · rw [if_neg (TypeDesc.not_isStruct_of_isArray ha), if_pos ha, Schema.inlineSize_array ha hone.not_isArray]
    rcases hone with hscalar | ⟨hes, inner, hi, hfixed⟩
    · rw [Bool.eq_false_iff.2 (TypeDesc.not_isStruct_of_isScalar hscalar), (Schema.inline_scalar hscalar).1]
      exact ((counts_of_nest (.put _ _ _)).loop _).trans (by rw [hput])
    · rw [hes, hi, (Schema.inline_struct hes hi hfixed).1]
      refine ((counts_of_nest (nest_opsOf s depth inner _ true)).loop _).trans ?_
      rw [hinner (by rw [ha, Bool.or_true]) inner hi hfixed]

/-- The steps of a struct count as many bytes as it has. The induction is on the depth, which stays above the ranks of the structs
inside. -/
theorem bytesOf_opsOf (hvalid : s.validate = .ok ()) {rank : Nat → Nat} (hrank : Layout.Ranked s.structs rank) (depth : Nat) :
    ∀ {i : Nat} {d : StructDef}, rank i < depth → s.structs[i]? = some d → d.fixed = true →
      ∀ lead inArray, bytesOf [1] (opsOf s depth d lead inArray) = d.byteSize := by
  induction depth with
  | zero =>
    intro i d hlt
    exact absurd hlt (Nat.not_lt_zero _)
  | succ depth ih =>
    intro i d hlt hi hfixed lead inArray
    have hd := List.mem_of_getElem? hi
    have hsize := ((Validity.checkFixed_eq_ok.1 ((Validity.checkStruct_eq_ok.1 ((Schema.validate_eq_ok.1 hvalid).2.2.1 d hd)).1
      hfixed)).2.2)
    have hfield : ∀ f ∈ d.fields, bytesOf [1] ((if f.padding = 0 then [] else [.pad f.padding]) ++
        valueOps s depth inArray (lead ++ f.name) f.type) = s.inlineSize f.type + f.padding := by
      intro f hf
      rw [bytesOf_pad, bytesOf_valueOps (Schema.inline_of_validate hvalid hd hfixed hf)]
      intro hkind inner hinner hinnerFixed lead inArray
      obtain ⟨j, hj, hget⟩ := Schema.structOf?_eq_some.1 hinner
      have hbelow := hrank.part i d hi hfixed f hf hkind j inner hj hget hinnerFixed
      exact ih (by omega) hget hinnerFixed lead inArray
    rw [← hsize]
    exact bytesOf_flatMap_reverse (fun f _ => .append (nest_pad f.padding) (nest_valueOps s depth _ _ f.type)) hfield

/-- The plan of a fixed struct writes as many bytes as the struct has, in every schema that follows the rules and in which the fixed
structs contain each other without a cycle. -/
theorem byteCount_eq_byteSize (s : Schema) (hvalid : s.validate = .ok ()) (hacyclic : Acyclic (Layout.Contains s.structs))
    (d : StructDef) (hd : d ∈ s.structs) (hfixed : d.fixed = true) : (StructPlan.of s d).byteCount = d.byteSize := by
  obtain ⟨rank, hrank⟩ := Layout.exists_ranked hacyclic
  obtain ⟨i, hi⟩ := List.mem_iff_getElem?.1 hd
  exact bytesOf_opsOf hvalid hrank _ (Nat.lt_succ_of_lt (hrank.lt i d hi hfixed)) hi hfixed "" false

/-- A struct with a struct inside it and an array of that struct without elements, with sizes and padding that no layout gives. -/
def changedSchema : Schema where
  structs := [
    { name := "Inner", fixed := true, byteSize := 9,
      fields := [{ name := "x", type := .plain .short, padding := 1 }, { name := "ys", type := .arrayOf (.plain .ushort) 3 }] },
    { name := "Outer", fixed := true, byteSize := 40,
      fields := [{ name := "a", type := .record 0, padding := 2 }, { name := "b", type := .arrayOf (.record 2) 0, padding := 7 },
        { name := "c", type := .arrayOf (.record 2) 4, padding := 2 }] },
    { name := "Pair", fixed := true, byteSize := 5,
      fields := [{ name := "x", type := .plain .byte }, { name := "y", type := .plain .int }] }]

/-- No struct of the changed schema contains itself. -/
theorem changedSchema_acyclic : Acyclic (Layout.Contains changedSchema.structs) := by
  have hok : (Layout.placeAll changedSchema.structs).isOk = true := by decide +kernel
  cases hall : Layout.placeAll changedSchema.structs with
  | ok structs => exact Layout.acyclic_of_placeAllBy Layout.placeStruct_keeps hall
  | error e =>
    rw [hall] at hok
    cases hok

/-- The changed schema has a struct of 40 bytes, and its plan writes as many. -/
theorem byteCount_changedSchema : ∃ d ∈ changedSchema.structs, d.byteSize = 40 ∧ (StructPlan.of changedSchema d).byteCount = 40 := by
  refine ⟨_, List.mem_cons_of_mem _ List.mem_cons_self, rfl, ?_⟩
  exact byteCount_eq_byteSize changedSchema (by decide +kernel) changedSchema_acyclic _ (List.mem_cons_of_mem _ List.mem_cons_self) rfl

end StructPlan

end FlatSchema

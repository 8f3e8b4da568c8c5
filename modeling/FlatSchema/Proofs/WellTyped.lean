import FlatSchema.Proofs.Resolution

/-!
# The types of a schema

A document that loads gives a schema whose types are well formed: every reference leads to a definition of the right kind, and
every field has a type that its struct or table can hold. Resolution gives most of this; the rest is checked. The check that no
array stands inside an element of an array searches to a bounded depth, which reaches everything since structs can be ranked.
-/

namespace FlatSchema

namespace Validity

/-! ## What the checks let through -/

theorem demand_eq_ok {condition : Bool} {rule : Violation} : demand condition rule = .ok () ↔ condition = true := by
  unfold demand refuse
  rw [ite_error_eq_ok]
  exact and_iff_left rfl

/-- Checks one after the other pass if each of them does. -/
theorem seq_eq_ok {ε : Type} {x y : Except ε Unit} : (x >>= fun _ => y) = .ok () ↔ x = .ok () ∧ y = .ok () := by
  rw [bind_eq_ok]
  constructor
  · rintro ⟨⟨⟩, hx, hy⟩
    exact ⟨hx, hy⟩
  · rintro ⟨hx, hy⟩
    exact ⟨(), hx, hy⟩

/-- The four checks of a field of a fixed struct. -/
theorem checkStructField_eq_ok {s : Schema} {d : StructDef} {f : FieldDef} :
    checkStructField s d f = .ok () ↔
      (f.type.isScalar || (f.type.isStruct && s.isFixedStruct f.type) || f.type.isArray) = true ∧
      f.type.isDiscriminant = false ∧ (f.type.isArray = true → arrayElementOk s f.type.elementType = true) ∧
      f.deprecated = false := by
  unfold checkStructField
  simp only [seq_eq_ok, demand_eq_ok, Bool.and_eq_true, Bool.not_eq_true', Bool.or_eq_true, and_assoc]
  cases f.type.isArray <;> simp

/-- A fixed struct passes if it has fields, each of them passes, and the layout takes as many bytes as it says. -/
theorem checkFixed_eq_ok {s : Schema} {d : StructDef} :
    checkFixed s d = .ok () ↔
      d.fields ≠ [] ∧ (∀ f ∈ d.fields, checkStructField s d f = .ok ()) ∧ fieldBytes s d = d.byteSize := by
  unfold checkFixed
  simp only [seq_eq_ok, demand_eq_ok, forM_eq_ok, ite_error_eq_ok, and_true, Bool.not_eq_true', List.isEmpty_eq_false_iff]

/-- The four checks of a field of a table. -/
theorem checkTableField_eq_ok {s : Schema} {d : StructDef} {f : FieldDef} :
    checkTableField s d f = .ok () ↔
      f.type.isArray = false ∧ (f.type.isVector && f.type.element.isContainer) = false ∧
      (f.required && f.type.isScalar) = false ∧ ∀ i, f.nested = some i → nestedOk s f.type i = true := by
  unfold checkTableField demandField
  simp only [seq_eq_ok, demand_eq_ok, Bool.not_eq_true']
  cases f.nested <;> simp

/-- Fixed structs and tables are checked by different rules, and both have their key checked. -/
theorem checkStruct_eq_ok {s : Schema} {d : StructDef} :
    checkStruct s d = .ok () ↔
      (d.fixed = true → checkFixed s d = .ok ()) ∧
      (d.fixed = false → ∀ f ∈ d.fields, checkTableField s d f = .ok ()) ∧ checkKey d = .ok () := by
  unfold checkStruct
  cases d.fixed with
  | true => simp [seq_eq_ok]
  | false =>
    rw [if_neg Bool.false_ne_true, seq_eq_ok, forM_eq_ok]
    simp

/-- The members of an enum pass exactly if their names are new and different, their values are in range, and what a variant other
than the zero carries is a string or a table. -/
theorem checkMembers_eq_ok {s : Schema} {e : EnumDef} {low high : Int} {vals : List EnumVal} : ∀ {seen : List String},
    checkMembers s e low high seen vals = .ok () ↔
      (vals.map (·.name)).Nodup ∧ (∀ v ∈ vals, v.name ∉ seen) ∧
      (∀ v ∈ vals, low ≤ memberNumber e.underlying.base v ∧ memberNumber e.underlying.base v ≤ high) ∧
      (e.isUnion = true → ∀ v ∈ vals, v.isZero = true ∨ v.payload.isString = true ∨ s.isTable v.payload = true) := by
  induction vals with
  | nil =>
    intro seen
    simp [checkMembers]
  | cons v rest ih =>
    intro seen
    have hseen : (∀ w ∈ rest, w.name ∉ v.name :: seen) ↔ v.name ∉ rest.map (·.name) ∧ ∀ w ∈ rest, w.name ∉ seen := by
      simp only [List.mem_cons, not_or, List.mem_map, not_exists, not_and, imp_and, forall_and]
    have hpayload : (!e.isUnion || v.isZero || v.payload.isString || s.isTable v.payload) = true ↔
        (e.isUnion = true → v.isZero = true ∨ v.payload.isString = true ∨ s.isTable v.payload = true) := by
      cases e.isUnion <;> simp [or_assoc]
    simp only [checkMembers, seq_eq_ok, error_ite_eq_ok, demand_eq_ok, ih, hseen, hpayload, List.map_cons, List.nodup_cons,
      List.forall_mem_cons, not_or, Int.not_lt, Bool.not_eq_true', List.contains_eq_mem, decide_eq_false_iff_not]
    constructor
    · rintro ⟨hv, ⟨hlow, hhigh⟩, hp, hnodup, ⟨hnew, hrest⟩, hrange, hpayloads⟩
      exact ⟨⟨hnew, hnodup⟩, ⟨hv, hrest⟩, ⟨⟨hlow, hhigh⟩, hrange⟩, fun hu => ⟨hp hu, hpayloads hu⟩⟩
    · rintro ⟨⟨hnew, hnodup⟩, ⟨hv, hrest⟩, ⟨⟨hlow, hhigh⟩, hrange⟩, hpayloads⟩
      exact ⟨hv, ⟨hlow, hhigh⟩, fun hu => (hpayloads hu).1, hnodup, ⟨hnew, hrest⟩, hrange, fun hu => (hpayloads hu).2⟩

/-- An enum passes if its type has a range and its members stay inside it. -/
theorem checkEnum_eq_ok {s : Schema} {e : EnumDef} :
    checkEnum s e = .ok () ↔
      ∃ low high, e.underlying.base.range = some (low, high) ∧ checkMembers s e low high [] e.vals = .ok () := by
  unfold checkEnum
  cases e.underlying.base.range with
  | none => simp [refuse]
  | some bounds =>
    obtain ⟨low, high⟩ := bounds
    simp [and_assoc]

end Validity

open Validity in
/-- A schema is valid if its names, enums, structs and root pass. -/
theorem Schema.validate_eq_ok {s : Schema} :
    s.validate = .ok () ↔ checkNames s = .ok () ∧ (∀ e ∈ s.enums, checkEnum s e = .ok ()) ∧
      (∀ d ∈ s.structs, checkStruct s d = .ok ()) ∧ checkRoot s = .ok () := by
  unfold Schema.validate
  rw [seq_eq_ok, seq_eq_ok, seq_eq_ok, forM_eq_ok, forM_eq_ok]

/-! ## Arrays inside structs -/

/-- An array stands in a struct, as a field or inside a struct that is a field. -/
inductive HasArray (s : Schema) : StructDef → Prop
  | here {d : StructDef} {f : FieldDef} (hf : f ∈ d.fields) (ha : f.type.isArray = true) : HasArray s d
  | inside {d inner : StructDef} {f : FieldDef} (hf : f ∈ d.fields) (hs : f.type.isStruct = true)
    (hi : s.structOf? f.type = some inner) (ha : HasArray s inner) : HasArray s d

/-- A value that stands in place as one piece: a scalar that is no discriminant, or a fixed struct. -/
def TypeDesc.Flat (s : Schema) (t : TypeDesc) : Prop :=
  (t.isScalar = true ∧ t.base ≠ .utype) ∨ (t.isStruct = true ∧ ∃ d, s.structOf? t = some d ∧ d.fixed = true)

/-- The struct of a type is the one at its index. -/
theorem Schema.structOf?_eq_some {s : Schema} {t : TypeDesc} {d : StructDef} :
    s.structOf? t = some d ↔ ∃ i, t.structRef = some i ∧ s.structs[i]? = some d :=
  Option.bind_eq_some_iff

/-- The struct of a type is one of the schema. -/
theorem Schema.mem_of_structOf? {s : Schema} {t : TypeDesc} {d : StructDef} (h : s.structOf? t = some d) : d ∈ s.structs := by
  obtain ⟨i, _, hi⟩ := Schema.structOf?_eq_some.1 h
  exact List.mem_of_getElem? hi

/-- The enum of a type is one of the schema. -/
theorem Schema.mem_of_enumOf? {s : Schema} {t : TypeDesc} {e : EnumDef} (h : s.enumOf? t = some e) : e ∈ s.enums := by
  obtain ⟨i, _, hi⟩ := Option.bind_eq_some_iff.1 h
  exact List.mem_of_getElem? hi

theorem TypeDesc.isStruct_iff {t : TypeDesc} : t.isStruct = true ↔ t.base = .struct := beq_iff_eq

theorem TypeDesc.isArray_iff {t : TypeDesc} : t.isArray = true ↔ t.base = .array := beq_iff_eq

theorem TypeDesc.isVector_iff {t : TypeDesc} : t.isVector = true ↔ t.base = .vector := beq_iff_eq

theorem TypeDesc.isScalar_of_isInteger {t : TypeDesc} (h : t.base.isInteger = true) : t.isScalar = true := by
  rw [isScalar, BaseType.isScalar, h, Bool.true_or]

/-- Scalars are not structs. -/
theorem TypeDesc.not_isStruct_of_isScalar {t : TypeDesc} (h : t.isScalar = true) : t.isStruct ≠ true := by
  intro hs
  rw [TypeDesc.isScalar, TypeDesc.isStruct_iff.1 hs] at h
  nomatch h

/-- Arrays are not scalars. -/
theorem TypeDesc.not_isScalar_of_isArray {t : TypeDesc} (h : t.isArray = true) : t.isScalar ≠ true := by
  intro hscalar
  rw [TypeDesc.isScalar, TypeDesc.isArray_iff.1 h] at hscalar
  nomatch hscalar

/-- Arrays are not structs. -/
theorem TypeDesc.not_isStruct_of_isArray {t : TypeDesc} (h : t.isArray = true) : t.isStruct ≠ true := by
  intro hs
  rw [TypeDesc.isArray_iff, TypeDesc.isStruct_iff.1 hs] at h
  nomatch h

/-- A flat type that is a struct is one that is fixed. -/
theorem TypeDesc.Flat.inner {s : Schema} {t : TypeDesc} (ht : t.Flat s) (hs : t.isStruct = true) {inner : StructDef}
    (hi : s.structOf? t = some inner) : inner ∈ s.structs ∧ inner.fixed = true := by
  refine ⟨Schema.mem_of_structOf? hi, ?_⟩
  rcases ht with ⟨hscalar, _⟩ | ⟨_, inner', hi', hfixed⟩
  · exact absurd hs (TypeDesc.not_isStruct_of_isScalar hscalar)
  · rw [hi, Option.some.injEq] at hi'
    exact hi' ▸ hfixed

/-- The fields of fixed structs are flat or arrays. -/
def Schema.FixedFields (s : Schema) : Prop :=
  ∀ d ∈ s.structs, d.fixed = true → ∀ f ∈ d.fields, f.type.Flat s ∨ f.type.isArray = true

/-- A struct that is a field of a fixed struct is fixed. -/
theorem Schema.FixedFields.inner {s : Schema} (h : s.FixedFields) {d inner : StructDef} (hd : d ∈ s.structs)
    (hfixed : d.fixed = true) {f : FieldDef} (hf : f ∈ d.fields) (hs : f.type.isStruct = true)
    (hi : s.structOf? f.type = some inner) : inner.fixed = true := by
  rcases h d hd hfixed f hf with hflat | harray
  · exact (hflat.inner hs hi).2
  · exact absurd hs (TypeDesc.not_isStruct_of_isArray harray)

/-- The bounded search for an array reaches as deep as structs stand inside structs. -/
theorem HasArray.contains {s : Schema} {rank : Nat → Nat} (hrank : Layout.Ranked s.structs rank) (hfields : s.FixedFields)
    {d : StructDef} (h : HasArray s d) :
    ∀ {i depth : Nat}, s.structs[i]? = some d → d.fixed = true → rank i < depth →
      Validity.containsArray s depth d = true := by
  induction h with
  | @here d f hf ha =>
    intro i depth _ _ hlt
    obtain ⟨depth, rfl⟩ := Nat.exists_eq_succ_of_ne_zero (Nat.ne_of_gt (Nat.zero_lt_of_lt hlt))
    rw [Validity.containsArray, List.any_eq_true]
    exact ⟨f, hf, by rw [ha, Bool.true_or]⟩
  | @inside d inner f hf hs hi _ ih =>
    intro i depth hd hfixed hlt
    obtain ⟨depth, rfl⟩ := Nat.exists_eq_succ_of_ne_zero (Nat.ne_of_gt (Nat.zero_lt_of_lt hlt))
    obtain ⟨j, hj, hinner⟩ := Schema.structOf?_eq_some.1 hi
    have hinnerFixed := hfields.inner (List.mem_of_getElem? hd) hfixed hf hs hi
    have hstep := hrank.part i d hd hfixed f hf (by rw [hs, Bool.true_or]) j inner hj hinner hinnerFixed
    have hdeep : Validity.containsArray s depth inner = true := ih hinner hinnerFixed (by omega)
    rw [Validity.containsArray, List.any_eq_true]
    exact ⟨f, hf, by simp [hs, hi, hdeep]⟩

/-- A type that passes for a fixed struct has one. -/
theorem Schema.fixed_of_isFixedStruct {s : Schema} {t : TypeDesc} (h : s.isFixedStruct t = true) :
    ∃ d, s.structOf? t = some d ∧ d.fixed = true := by
  unfold Schema.isFixedStruct at h
  split at h
  next d hd =>
    rw [Bool.and_eq_true] at h
    exact ⟨d, hd, h.1⟩
  next => nomatch h

/-- What an array may hold: scalars and fixed structs that hold no arrays themselves. -/
theorem Validity.arrayElementOk_spec {s : Schema} {t : TypeDesc} (h : Validity.arrayElementOk s t = true) :
    (t.isScalar = true ∨ (t.isStruct = true ∧ ∃ d, s.structOf? t = some d ∧ d.fixed = true)) ∧
      ∀ d, s.structOf? t = some d → Validity.containsArray s s.structs.length d = false := by
  unfold arrayElementOk at h
  rw [Bool.and_eq_true, Bool.or_eq_true, Bool.and_eq_true] at h
  obtain ⟨hkind, hflat⟩ := h
  constructor
  · exact hkind.imp_right fun ⟨hs, hfixed⟩ => ⟨hs, Schema.fixed_of_isFixedStruct hfixed⟩
  · intro d hd
    rw [hd] at hflat
    simpa using hflat

/-! ## Well-formed types -/

/-- A type refers only to definitions that are there, and to those of the right kind. -/
structure TypeDesc.WellFormed (s : Schema) (t : TypeDesc) : Prop where
  structRef : ∀ i, t.structRef = some i → i < s.structs.length
  enumRef : ∀ i, t.enumRef = some i → i < s.enums.length
  scalar : t.isScalar = true → t.structRef = none
  record : t.base = .struct → t.structRef.isSome = true ∧ t.enumRef = none
  union : t.base = .union ∨ t.base = .utype → ∃ i e, t.enumRef = some i ∧ s.enums[i]? = some e ∧ e.isUnion = true
  enumeration : t.isScalar = true → t.base ≠ .utype → ∀ i, t.enumRef = some i →
    ∃ e, s.enums[i]? = some e ∧ e.isUnion = false ∧ t.base.isInteger = true ∧ t.base ≠ .bool ∧ t.base = e.underlying.base

/-- The rules that the types of a schema keep. -/
structure Schema.WellTyped (s : Schema) : Prop where
  root : ∀ i, s.root = some i → i < s.structs.length
  nested : ∀ d ∈ s.structs, ∀ f ∈ d.fields, ∀ i, f.nested = some i → i < s.structs.length
  field : ∀ d ∈ s.structs, ∀ f ∈ d.fields, f.type.WellFormed s ∧ f.type.base ≠ .none
  vector : ∀ d ∈ s.structs, ∀ f ∈ d.fields, f.type.isVector = true → f.type.elementType.WellFormed s ∧
    (f.type.element.isScalar = true ∨ f.type.element = .string ∨ f.type.element = .struct ∨ f.type.element = .union)
  /-- A discriminant, or a vector of discriminants, stands in front of its union and has a name made of the union's. -/
  hidden : ∀ d ∈ s.structs, ∀ (k : Nat) (f : FieldDef), d.fields[k]? = some f → f.type.isDiscriminant = true →
    ∃ g, d.fields[k + 1]? = some g ∧ f.Tags g
  array : ∀ d ∈ s.structs, ∀ f ∈ d.fields, f.type.isArray = true → d.fixed = true ∧
    1 ≤ f.type.length ∧ f.type.length ≤ 65535 ∧ f.type.elementType.WellFormed s ∧ f.type.elementType.Flat s ∧
    ∀ inner, s.structOf? f.type.elementType = some inner → ¬HasArray s inner
  fixed : s.FixedFields
  payload : ∀ e ∈ s.enums, ∀ v ∈ e.vals, v.payload.WellFormed s ∧
    (v.payload.base = .none ∨ v.payload.base = .string ∨ v.payload.base = .struct)

section Denotations

variable {s : Schema} {t : TypeDesc}

/-- A base type that needs no definition is well formed. -/
theorem TypeDesc.plain_wellFormed {b : BaseType} (hs : b ≠ .struct) (hu : b ≠ .union) (ht : b ≠ .utype) :
    (TypeDesc.plain b).WellFormed s :=
  ⟨nofun, nofun, fun _ => rfl, fun h => absurd h hs, fun h => absurd h (not_or.2 ⟨hu, ht⟩), nofun⟩

/-- A struct type is well formed if its index is in bounds. -/
theorem TypeDesc.record_wellFormed {i : Nat} (hi : i < s.structs.length) : (TypeDesc.record i).WellFormed s := by
  refine ⟨?_, nofun, nofun, fun _ => ⟨rfl, rfl⟩, nofun, nofun⟩
  rintro j ⟨⟩
  exact hi

/-- A union and its discriminant are well formed if the index leads to a union. -/
theorem TypeDesc.union_wellFormed {i : Nat} {e : EnumDef} (he : s.enums[i]? = some e) (hyes : e.isUnion = true) :
    (TypeDesc.union i).WellFormed s ∧ (TypeDesc.discriminant i).WellFormed s := by
  have hlt := (List.getElem?_eq_some_iff.1 he).1
  refine ⟨⟨nofun, ?_, fun _ => rfl, nofun, fun _ => ⟨i, e, rfl, he, hyes⟩, nofun⟩,
    ⟨nofun, ?_, fun _ => rfl, nofun, fun _ => ⟨i, e, rfl, he, hyes⟩, fun _ h => absurd rfl h⟩⟩ <;>
  · rintro j ⟨⟩
    exact hlt

/-- An enum type is well formed if it bears the integer type of its enum. -/
theorem TypeDesc.enumeration_wellFormed {i : Nat} {e : EnumDef} {b : BaseType} (he : s.enums[i]? = some e)
    (hno : e.isUnion = false) (hb : e.underlying = .plain b) (hint : b.isInteger = true) (hbool : b ≠ .bool)
    (hu : b ≠ .utype) : (TypeDesc.enumeration b i).WellFormed s := by
  refine ⟨nofun, ?_, fun _ => rfl, ?_, ?_, ?_⟩
  · rintro j ⟨⟩
    exact (List.getElem?_eq_some_iff.1 he).1
  · rintro (rfl : b = .struct)
    nomatch hint
  · rintro ((rfl : b = .union) | (rfl : b = .utype))
    · nomatch hint
    · exact absurd rfl hu
  · rintro _ _ j ⟨⟩
    exact ⟨e, he, hno, hint, hbool, by rw [hb]; rfl⟩

/-- A type that is named is well formed. -/
theorem Denoted.wellFormed (ht : Denoted s.enums s.structs.length t) : t.WellFormed s := by
  cases ht with
  | @plain b hb hu => refine TypeDesc.plain_wellFormed ?_ ?_ hu <;> (rintro rfl; nomatch hb)
  | enumeration he hno hb hint hbool hu => exact TypeDesc.enumeration_wellFormed he hno hb hint hbool hu
  | record hi => exact TypeDesc.record_wellFormed hi
  | union he hyes => exact (TypeDesc.union_wellFormed he hyes).1

theorem BaseType.isScalar_of_isContainer {b : BaseType} (h : b.isContainer = true) : b.isScalar = false := by
  revert h
  cases b <;> decide

/-- A container keeps the rules if its elements do. -/
theorem TypeDesc.WellFormed.container (h : t.elementType.WellFormed s) (hc : t.base.isContainer = true) : t.WellFormed s := by
  have hscalar : t.isScalar ≠ true := by
    rw [TypeDesc.isScalar, BaseType.isScalar_of_isContainer hc]
    exact Bool.false_ne_true
  refine ⟨h.structRef, h.enumRef, fun hs => absurd hs hscalar, ?_, ?_, fun hs => absurd hs hscalar⟩
  · intro hb
    rw [hb] at hc
    nomatch hc
  · rintro (hb | hb)
    · rw [hb] at hc
      nomatch hc
    · rw [hb] at hc
      nomatch hc

/-- What a name denotes has no elements of its own, so that it can be got back from a vector or array of it. -/
theorem Denoted.elementType_eq {enums : List EnumDef} {structs : Nat} (ht : Denoted enums structs t) :
    { base := t.base, structRef := t.structRef, enumRef := t.enumRef } = t := by
  cases ht <;> rfl

/-- A type that is named is never a vector or an array. -/
theorem Denoted.isElement (ht : Denoted s.enums s.structs.length t) :
    t.base.isScalar = true ∨ t.base = .string ∨ t.base = .struct ∨ t.base = .union := by
  cases ht with
  | plain hb => exact hb.imp_right .inl
  | enumeration _ _ _ hint =>
    left
    rw [BaseType.isScalar, show (TypeDesc.enumeration _ _).base.isInteger = true from hint, Bool.true_or]
  | record => exact .inr (.inr (.inl rfl))
  | union => exact .inr (.inr (.inr rfl))

end Denotations

/-! ## The types of fields -/

/-- The types that fields have: those of expressions, and those of hidden discriminants. -/
inductive Held (enums : List EnumDef) (structs : Nat) : TypeDesc → Prop
  | expressed {t : TypeDesc} (ht : Expressed enums structs t) : Held enums structs t
  | discriminant {i : Nat} {e : EnumDef} (he : enums[i]? = some e) (hyes : e.isUnion = true) :
    Held enums structs (.discriminant i)
  | discriminants {i : Nat} {e : EnumDef} (he : enums[i]? = some e) (hyes : e.isUnion = true) :
    Held enums structs (.vectorOf (.discriminant i))

/-- The union of a type is one. -/
theorem Expressed.union_isUnion {enums : List EnumDef} {structs i : Nat} {t : TypeDesc} (ht : Expressed enums structs t)
    (hi : t = .union i ∨ t = .vectorOf (.union i)) : ∃ e, enums[i]? = some e ∧ e.isUnion = true := by
  cases ht with
  | name ht =>
    rcases hi with rfl | rfl
    · obtain ⟨j, e, hj, he, hyes⟩ := ht.eq_union rfl
      cases hj
      exact ⟨e, he, hyes⟩
    · exact absurd rfl ht.base_ne.2.1
  | @vector t ht =>
    rcases hi with hi | hi
    · nomatch congrArg TypeDesc.base hi
    · obtain ⟨j, e, rfl, he, hyes⟩ := ht.eq_union (congrArg TypeDesc.element hi)
      have hij : some j = some i := congrArg TypeDesc.enumRef hi
      cases hij
      exact ⟨e, he, hyes⟩
  | array ht =>
    rcases hi with hi | hi
    · nomatch congrArg TypeDesc.base hi
    · nomatch congrArg TypeDesc.base hi

/-- The types of declared fields, hidden ones included, are held by fields, and nested roots are in bounds. -/
theorem Declared.held {enums : List EnumDef} {structs : Nat} {fs : List FieldDef} (h : Declared enums structs fs) :
    ∀ f ∈ fs, Held enums structs f.type ∧ ∀ i, f.nested = some i → i < structs := by
  induction h with
  | nil => exact fun f hf => absurd hf List.not_mem_nil
  | field ht _ hn _ ih =>
    intro g hg
    rcases List.mem_cons.1 hg with rfl | hg
    · exact ⟨.expressed ht, hn⟩
    · exact ih g hg
  | @tagged tag f rest htag ht hn htn _ ih =>
    intro g hg
    rcases List.mem_cons.1 hg with rfl | hg
    · refine ⟨?_, by rw [htn]; exact nofun⟩
      obtain ⟨_, i, ⟨hf, hg⟩ | ⟨hf, hg⟩⟩ := htag
      · obtain ⟨e, he, hyes⟩ := ht.union_isUnion (.inl hf)
        exact hg ▸ .discriminant he hyes
      · obtain ⟨e, he, hyes⟩ := ht.union_isUnion (.inr hf)
        exact hg ▸ .discriminants he hyes
    · rcases List.mem_cons.1 hg with rfl | hg
      · exact ⟨.expressed ht, hn⟩
      · exact ih g hg

theorem TypeDesc.isDiscriminant_iff {t : TypeDesc} :
    t.isDiscriminant = true ↔ t.base = .utype ∨ (t.base = .vector ∧ t.element = .utype) := by
  simp [isDiscriminant, isVector]

/-- No type that is written is a discriminant: those come with their unions only. -/
theorem Expressed.not_discriminant {enums : List EnumDef} {structs : Nat} {t : TypeDesc} (ht : Expressed enums structs t) :
    t.isDiscriminant ≠ true := by
  rw [ne_eq, TypeDesc.isDiscriminant_iff]
  cases ht with
  | name ht =>
    rintro (hb | ⟨hb, _⟩)
    · exact ht.base_ne.2.2.2 hb
    · exact ht.base_ne.2.1 hb
  | vector ht =>
    rintro (hb | ⟨_, hb⟩)
    · nomatch hb
    · exact ht.base_ne.2.2.2 hb
  | array ht =>
    rintro (hb | ⟨hb, _⟩)
    · nomatch hb
    · nomatch hb

/-- Behind every discriminant stands its union. -/
theorem Declared.union_behind {enums : List EnumDef} {structs : Nat} {fs : List FieldDef} (h : Declared enums structs fs) :
    ∀ (k : Nat) (f : FieldDef), fs[k]? = some f → f.type.isDiscriminant = true → ∃ g, fs[k + 1]? = some g ∧ f.Tags g := by
  induction h with
  | nil => exact fun k f hf => nomatch hf
  | field ht _ _ _ ih =>
    intro k g hg hd
    cases k with
    | zero =>
      cases hg
      exact absurd hd ht.not_discriminant
    | succ k => exact ih k g hg hd
  | @tagged tag f rest htag ht _ _ _ ih =>
    intro k g hg hd
    match k with
    | 0 =>
      cases hg
      exact ⟨f, rfl, htag⟩
    | 1 =>
      cases hg
      exact absurd hd ht.not_discriminant
    | k + 2 => exact ih k g hg hd

namespace Held

variable {s : Schema} {t : TypeDesc}

/-- What a field holds is well formed and never the empty type. -/
theorem wellFormed (ht : Held s.enums s.structs.length t) : t.WellFormed s ∧ t.base ≠ .none := by
  cases ht with
  | expressed ht =>
    cases ht with
    | name ht => exact ⟨ht.wellFormed, ht.base_ne.1⟩
    | vector ht => exact ⟨.container (ht.elementType_eq ▸ ht.wellFormed) rfl, nofun⟩
    | array ht => exact ⟨.container (ht.elementType_eq ▸ ht.wellFormed) rfl, nofun⟩
  | discriminant he hyes => exact ⟨(TypeDesc.union_wellFormed he hyes).2, nofun⟩
  | discriminants he hyes => exact ⟨.container (TypeDesc.union_wellFormed he hyes).2 rfl, nofun⟩

/-- What a vector holds is well formed and no container. -/
theorem element (ht : Held s.enums s.structs.length t) (hv : t.isVector = true) : t.elementType.WellFormed s ∧
    (t.element.isScalar = true ∨ t.element = .string ∨ t.element = .struct ∨ t.element = .union) := by
  cases ht with
  | expressed ht =>
    cases ht with
    | name ht => exact absurd (TypeDesc.isVector_iff.1 hv) ht.base_ne.2.1
    | vector ht => exact ⟨ht.elementType_eq ▸ ht.wellFormed, ht.isElement⟩
    | array ht => nomatch hv
  | discriminant he hyes => nomatch hv
  | discriminants he hyes => exact ⟨(TypeDesc.union_wellFormed he hyes).2, .inl rfl⟩

/-- An array has a length of 16 bits that is not zero and a well formed element. -/
theorem arrayElement (ht : Held s.enums s.structs.length t) (ha : t.isArray = true) :
    1 ≤ t.length ∧ t.length ≤ 65535 ∧ t.elementType.WellFormed s ∧ t.element ≠ .utype := by
  cases ht with
  | expressed ht =>
    cases ht with
    | name ht => exact absurd (TypeDesc.isArray_iff.1 ha) ht.base_ne.2.2.1
    | vector ht => nomatch ha
    | array ht hpos hn => exact ⟨hpos, hn, ht.elementType_eq ▸ ht.wellFormed, ht.base_ne.2.2.2⟩
  | discriminant he hyes => nomatch ha
  | discriminants he hyes => nomatch ha

end Held

/-! ## Schemas of documents -/

/-- In a valid schema the fields of fixed structs are scalars, fixed structs and arrays of them. -/
theorem Schema.fixedFields_of_validate {s : Schema} (h : s.validate = .ok ()) : s.FixedFields := by
  intro d hd hfixed f hf
  have hstruct := (Schema.validate_eq_ok.1 h).2.2.1 d hd
  have hcheck := (Validity.checkFixed_eq_ok.1 ((Validity.checkStruct_eq_ok.1 hstruct).1 hfixed)).2.1 f hf
  obtain ⟨hkind, hdisc, _, _⟩ := Validity.checkStructField_eq_ok.1 hcheck
  simp only [Bool.or_eq_true, Bool.and_eq_true] at hkind
  rcases hkind with (hscalar | ⟨hs, hinner⟩) | harray
  · refine .inl (.inl ⟨hscalar, fun hb => ?_⟩)
    rw [Bool.eq_false_iff, ne_eq, TypeDesc.isDiscriminant_iff] at hdisc
    exact hdisc (.inl hb)
  · exact .inl (.inr ⟨hs, Schema.fixed_of_isFixedStruct hinner⟩)
  · exact .inr harray

namespace Loaded

variable {doc : SchemaDoc} {names : NameTable} {declared : List StructDef} {s : Schema}

/-- The type of every field is held by fields. -/
theorem held (h : Loaded doc names declared s) {d : StructDef} (hd : d ∈ s.structs) {f : FieldDef} (hf : f ∈ d.fields) :
    Held s.enums s.structs.length f.type :=
  ((h.declared_fields hd).held f hf).1

/-- Arrays stand in fixed structs only, and what stands in them has no arrays. -/
theorem array (h : Loaded doc names declared s) {d : StructDef} (hd : d ∈ s.structs) {f : FieldDef} (hf : f ∈ d.fields)
    (ha : f.type.isArray = true) :
    d.fixed = true ∧ f.type.elementType.Flat s ∧
      ∀ inner, s.structOf? f.type.elementType = some inner → ¬HasArray s inner := by
  have hstruct := Validity.checkStruct_eq_ok.1 ((Schema.validate_eq_ok.1 h.valid).2.2.1 d hd)
  have hfixed : d.fixed = true := by
    cases hcase : d.fixed with
    | true => rfl
    | false =>
      have hfield := Validity.checkTableField_eq_ok.1 (hstruct.2.1 hcase f hf)
      rw [hfield.1] at ha
      nomatch ha
  have hcheck := (Validity.checkFixed_eq_ok.1 (hstruct.1 hfixed)).2.1 f hf
  obtain ⟨hkind, hdeep⟩ := Validity.arrayElementOk_spec ((Validity.checkStructField_eq_ok.1 hcheck).2.2.1 ha)
  refine ⟨hfixed, hkind.imp_left fun hscalar => ⟨hscalar, ((h.held hd hf).arrayElement ha).2.2.2⟩, ?_⟩
  intro inner hinner harray
  obtain ⟨rank, hrank⟩ := h.placed.ranked
  obtain ⟨j, hj, hget⟩ := Schema.structOf?_eq_some.1 hinner
  have hinnerFixed : inner.fixed = true := by
    rcases hkind with hscalar | ⟨_, inner', hinner', hfixed'⟩
    · rw [((h.held hd hf).arrayElement ha).2.2.1.scalar hscalar] at hj
      nomatch hj
    · rw [hinner, Option.some.injEq] at hinner'
      exact hinner' ▸ hfixed'
  -- the search for arrays goes as deep as there are structs, and parts are of lower rank, so it would have found one
  have hfound := harray.contains hrank (Schema.fixedFields_of_validate h.valid) hget hinnerFixed
    (hrank.lt j inner hget hinnerFixed)
  rw [hdeep inner hinner] at hfound
  nomatch hfound

end Loaded

/-- The types of a schema that a document gives are well formed. -/
theorem Schema.ofDocument_wellTyped {doc : SchemaDoc} {s : Schema} (h : Schema.ofDocument doc = .ok s) : s.WellTyped := by
  obtain ⟨names, declared, h⟩ := Schema.ofDocument_loaded h
  refine ⟨fun i hi => h.root_lt hi, ?_, ?_, ?_, ?_, ?_, Schema.fixedFields_of_validate h.valid, ?_⟩
  · intro d hd f hf
    exact ((h.declared_fields hd).held f hf).2
  · intro d hd f hf
    exact (h.held hd hf).wellFormed
  · intro d hd f hf hv
    exact (h.held hd hf).element hv
  · intro d hd
    exact (h.declared_fields hd).union_behind
  · intro d hd f hf ha
    obtain ⟨hpos, hlen, hwf, _⟩ := (h.held hd hf).arrayElement ha
    obtain ⟨hfixed, hflat, hdeep⟩ := h.array hd hf ha
    exact ⟨hfixed, hpos, hlen, hwf, hflat, hdeep⟩
  · intro e he v hv
    rcases (h.enum_resolved he).payload v hv with hp | hp | ⟨i, hi, hp⟩
    · rw [hp]
      exact ⟨TypeDesc.plain_wellFormed nofun nofun nofun, .inl rfl⟩
    · rw [hp]
      exact ⟨TypeDesc.plain_wellFormed nofun nofun nofun, .inr (.inl rfl)⟩
    · rw [hp]
      exact ⟨TypeDesc.record_wellFormed hi, .inr (.inr rfl)⟩

/-- The sample loads and is well typed. -/
theorem sampleDoc_wellTyped : ∃ s, Schema.ofDocument sampleDoc = .ok s ∧ s.WellTyped := by
  obtain ⟨s, hs, _⟩ := Schema.exists_ofDocument sampleDoc (fun s => s.root) (some 2) (by decide +kernel)
  exact ⟨s, hs, Schema.ofDocument_wellTyped hs⟩

end FlatSchema

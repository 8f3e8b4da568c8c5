import FlatSchema.Proofs.WellTyped

/-!
# The layout of fixed structs

The fields of a fixed struct stand one after the other, each at a multiple of its alignment, with the least padding between them
that this takes (`Chain`). Alignments are small powers of two, so that a greater one is a multiple of a lesser one; hence what
stands inside a struct is aligned when the struct is, however deep it lies (`Leaf`), and no two scalars share a byte.
-/

namespace FlatSchema

namespace Layout

/-! ## Padding -/

/-- Padding leads to a multiple of the alignment. -/
theorem dvd_add_paddingFor {a : Nat} (ha : 0 < a) (n : Nat) : a ∣ n + paddingFor n a := by
  have hlt := Nat.mod_lt n ha
  have hdiv := Nat.div_add_mod n a
  apply Nat.dvd_of_mod_eq_zero
  calc (n + paddingFor n a) % a = (n + (a - n % a)) % a := Nat.add_mod_mod n (a - n % a) a
    _ = (a * (n / a) + a) % a := by rw [show n + (a - n % a) = a * (n / a) + a by omega]
    _ = 0 := by rw [Nat.add_mod_right, Nat.mul_mod_right]

/-- Padding is less than the alignment. -/
theorem paddingFor_lt {a : Nat} (ha : 0 < a) (n : Nat) : paddingFor n a < a := Nat.mod_lt _ ha

/-- An alignment that structs can have: a power of two up to sixteen. -/
def IsAlignment (a : Nat) : Prop := ∃ k ≤ 4, a = Nat.pow 2 k

namespace IsAlignment

theorem pos {a : Nat} (h : IsAlignment a) : 0 < a := by
  obtain ⟨k, _, rfl⟩ := h
  exact Nat.two_pow_pos k

/-- Of two alignments the greater is a multiple of the other. -/
theorem dvd_of_le {a b : Nat} (ha : IsAlignment a) (hb : IsAlignment b) (hle : a ≤ b) : a ∣ b := by
  obtain ⟨k, _, rfl⟩ := ha
  obtain ⟨m, _, rfl⟩ := hb
  exact Nat.pow_dvd_pow 2 ((Nat.pow_le_pow_iff_right (by decide)).1 hle)

/-- The size of a scalar is an alignment. -/
theorem scalar {b : BaseType} (hb : b.isScalar = true) : IsAlignment b.size := by
  cases b with
  | none | string | vector | struct | union | array => nomatch hb
  | utype | bool | byte | ubyte => exact ⟨0, by decide, rfl⟩
  | short | ushort => exact ⟨1, by decide, rfl⟩
  | int | uint | float => exact ⟨2, by decide, rfl⟩
  | long | ulong | double => exact ⟨3, by decide, rfl⟩

/-- What is accepted as a forced alignment is one. -/
theorem of_isPowerOfTwo {n : Nat} (h : isPowerOfTwo n = true) (hn : n ≤ maxForcedAlignment) : IsAlignment n := by
  unfold isPowerOfTwo at h
  rw [Bool.and_eq_true, beq_iff_eq] at h
  refine ⟨Nat.log2 n, ?_, h.2.symm⟩
  rw [← h.2] at hn
  exact (Nat.pow_le_pow_iff_right (a := 2) (by decide)).1 hn

end IsAlignment

/-! ## Fields in a row -/

/-- The alignment that padding after a field works towards: that of the next field, or that of the struct. -/
def alignmentAfter (s : Schema) (last : Nat) : List FieldDef → Nat
  | [] => last
  | g :: _ => s.inlineAlignment g.type

/-- Fields stand one after the other from a position to another, each with the padding that what comes after it asks for. -/
def Chain (s : Schema) (last : Nat) : Nat → List FieldDef → Nat → Prop
  | position, [], stop => position = stop
  | position, f :: rest, stop =>
    f.offset = position ∧
      f.padding = paddingFor (position + s.inlineSize f.type) (alignmentAfter s last rest) ∧
      Chain s last (position + s.inlineSize f.type + f.padding) rest stop

/-- One step of placing fields. Nothing is left after the last of them yet, as if bytes came next. -/
theorem placeFields_cons_eq_ok {s : Schema} {owner : String} {position stop : Nat} {f : FieldDef}
    {rest placed : List FieldDef} (h : placeFields s.structs owner position (f :: rest) = .ok (placed, stop)) :
    ∃ padding later, padding = paddingFor (position + s.inlineSize f.type) (alignmentAfter s 1 rest) ∧
      placeFields s.structs owner (position + s.inlineSize f.type + padding) rest = .ok (later, stop) ∧
      placed = { f with offset := position, padding := f.padding + padding } :: later := by
  rw [placeFields] at h
  obtain ⟨_, h⟩ := error_ite_eq_ok.1 h
  obtain ⟨⟨later, stop'⟩, hlater, h⟩ := bind_eq_ok.1 h
  cases h
  cases rest with
  | nil => exact ⟨0, later, (Nat.mod_one _).symm, hlater, rfl⟩
  | cons g tail => exact ⟨_, later, rfl, hlater, rfl⟩

/-- Placed fields stand in a row once the last of them has its padding. -/
theorem chain_of_placeFields {s : Schema} {owner : String} (last : Nat) :
    ∀ {position : Nat} {fields placed : List FieldDef} {stop : Nat},
      placeFields s.structs owner position fields = .ok (placed, stop) → fields ≠ [] → (∀ f ∈ fields, f.padding = 0) →
      Chain s last position (padLast (paddingFor stop last) placed) (stop + paddingFor stop last)
  | _, [], _, _, _, hne, _ => absurd rfl hne
  | position, [f], placed, stop, h, _, hzero => by
    obtain ⟨padding, later, hpadding, hlater, rfl⟩ := placeFields_cons_eq_ok h
    rw [alignmentAfter, paddingFor, Nat.mod_one] at hpadding
    subst hpadding
    cases hlater
    have hf := hzero f List.mem_cons_self
    simp only [padLast, Chain, alignmentAfter, hf, Nat.zero_add, Nat.add_zero]
    exact ⟨trivial, trivial, trivial⟩
  | position, f :: g :: rest, placed, stop, h, _, hzero => by
    obtain ⟨padding, later, hpadding, hlater, rfl⟩ := placeFields_cons_eq_ok h
    have ih := chain_of_placeFields last hlater (List.cons_ne_nil g rest)
      fun f' hf' => hzero f' (List.mem_cons_of_mem f hf')
    obtain ⟨padding', later', _, _, rfl⟩ := placeFields_cons_eq_ok hlater
    have hf := hzero f List.mem_cons_self
    rw [padLast, Chain]
    refine ⟨rfl, ?_, ?_⟩
    · rw [hf, Nat.zero_add, hpadding]
      cases later' <;> rfl
    · rw [hf, Nat.zero_add]
      exact ih

namespace Chain

variable {s : Schema} {last : Nat}

/-- A chain of fields goes forward. -/
theorem start_le : ∀ {position stop : Nat} {fields : List FieldDef}, Chain s last position fields stop → position ≤ stop
  | _, _, [], h => Nat.le_of_eq h
  | _, _, f :: rest, ⟨_, _, hrest⟩ => by
    have := hrest.start_le
    omega

/-- A field ends before the next one and before the end. -/
theorem fits : ∀ {position stop : Nat} {fields : List FieldDef}, Chain s last position fields stop →
    ∀ f ∈ fields, position ≤ f.offset ∧ f.offset + s.inlineSize f.type + f.padding ≤ stop
  | _, _, [], _, f, hf => absurd hf List.not_mem_nil
  | position, stop, g :: rest, ⟨hoffset, _, hrest⟩, f, hf => by
    rcases List.mem_cons.1 hf with rfl | hf
    · have := hrest.start_le
      omega
    · have := hrest.fits f hf
      omega

/-- Of two fields the one that is declared first ends where the other starts, or earlier. -/
theorem ordered : ∀ {position stop : Nat} {fields : List FieldDef}, Chain s last position fields stop →
    ∀ {k m : Nat} {f g : FieldDef}, fields[k]? = some f → fields[m]? = some g → k < m →
      f.offset + s.inlineSize f.type ≤ g.offset
  | _, _, [], _, _, _, _, _, hf, _, _ => nomatch hf
  | position, stop, a :: rest, ⟨hoffset, _, hrest⟩, k, m, f, g, hf, hg, hkm => by
    obtain ⟨m, rfl⟩ := Nat.exists_eq_succ_of_ne_zero (Nat.ne_of_gt (Nat.zero_lt_of_lt hkm))
    rw [List.getElem?_cons_succ] at hg
    cases k with
    | zero =>
      cases hf
      have := hrest.fits g (List.mem_of_getElem? hg)
      omega
    | succ k => exact hrest.ordered hf hg (Nat.lt_of_succ_lt_succ hkm)

/-- Every field stands at a multiple of its alignment if the first one does. -/
theorem aligned : ∀ {position stop : Nat} {fields : List FieldDef}, Chain s last position fields stop →
    (∀ f ∈ fields, 0 < s.inlineAlignment f.type) → alignmentAfter s 1 fields ∣ position →
      ∀ f ∈ fields, s.inlineAlignment f.type ∣ f.offset
  | _, _, [], _, _, _, f, hf => absurd hf List.not_mem_nil
  | position, stop, g :: rest, ⟨hoffset, hpadding, hrest⟩, hpos, hstart, f, hf => by
    rcases List.mem_cons.1 hf with rfl | hf
    · rw [hoffset]
      exact hstart
    · refine hrest.aligned (fun f' hf' => hpos f' (List.mem_cons_of_mem g hf')) ?_ f hf
      cases rest with
      | nil => exact Nat.one_dvd _
      | cons a tail =>
        rw [hpadding]
        exact dvd_add_paddingFor (hpos a (List.mem_cons_of_mem g List.mem_cons_self)) _

/-- The padding between two fields is less than the alignment of the second, which starts right after it. -/
theorem next : ∀ {position stop : Nat} {fields : List FieldDef}, Chain s last position fields stop →
    (∀ f ∈ fields, 0 < s.inlineAlignment f.type) →
      ∀ {k : Nat} {f g : FieldDef}, fields[k]? = some f → fields[k + 1]? = some g →
        g.offset = f.offset + s.inlineSize f.type + f.padding ∧ f.padding < s.inlineAlignment g.type
  | _, _, [], _, _, _, _, _, hf, _ => nomatch hf
  | position, stop, a :: rest, ⟨hoffset, hpadding, hrest⟩, hpos, k, f, g, hf, hg => by
    rw [List.getElem?_cons_succ] at hg
    cases k with
    | zero =>
      cases hf
      cases rest with
      | nil => nomatch hg
      | cons b tail =>
        cases hg
        refine ⟨by rw [hrest.1, hoffset], ?_⟩
        rw [hpadding]
        exact paddingFor_lt (hpos g (List.mem_cons_of_mem _ List.mem_cons_self)) _
    | succ k => exact hrest.next (fun f' hf' => hpos f' (List.mem_cons_of_mem a hf')) hf hg

/-- After the last field comes less than an alignment of padding, and then the end, at a multiple of the alignment. -/
theorem final : ∀ {position stop : Nat} {fields : List FieldDef}, Chain s last position fields stop → 0 < last →
    ∀ {f : FieldDef}, fields.getLast? = some f →
      stop = f.offset + s.inlineSize f.type + f.padding ∧ f.padding < last ∧ last ∣ stop
  | _, _, [], _, _, _, hf => nomatch hf
  | position, stop, [a], ⟨hoffset, hpadding, hrest⟩, hlast, f, hf => by
    rw [List.getLast?_singleton, Option.some.injEq] at hf
    subst hf
    rw [Chain] at hrest
    refine ⟨by rw [← hrest, hoffset], ?_, ?_⟩
    · rw [hpadding]
      exact paddingFor_lt hlast _
    · rw [← hrest, hpadding]
      exact dvd_add_paddingFor hlast _
  | position, stop, a :: b :: tail, ⟨_, _, hrest⟩, hlast, f, hf => by
    rw [List.getLast?_cons_cons] at hf
    exact hrest.final hlast hf

end Chain

/-! ## The alignment of structs -/

/-- The natural alignment of fields with alignments is the greatest of theirs. -/
theorem max?_naturalAlignment {structs : List StructDef} {fields : List FieldDef} (hne : fields ≠ [])
    (hpos : ∀ f ∈ fields, 0 < inlineAlignment structs f.type) :
    (fields.map fun f => inlineAlignment structs f.type).max? = some (naturalAlignment structs fields) := by
  cases fields with
  | nil => exact absurd rfl hne
  | cons f rest =>
    have hf := hpos f List.mem_cons_self
    rw [naturalAlignment, List.map_cons, List.max?_cons', List.foldl_cons, List.foldl_map,
      show max 1 (inlineAlignment structs f.type) = inlineAlignment structs f.type by omega]

/-- The natural alignment depends on the types of the fields. -/
theorem naturalAlignment_unplaced {structs : List StructDef} {fs gs : List FieldDef}
    (h : fs.map FieldDef.unplaced = gs.map FieldDef.unplaced) : naturalAlignment structs fs = naturalAlignment structs gs := by
  have key : ∀ fields : List FieldDef, naturalAlignment structs fields =
      (fields.map FieldDef.unplaced).foldl (fun a f => max a (inlineAlignment structs f.type)) 1 := by
    intro fields
    rw [List.foldl_map]
    rfl
  rw [key, key, h]

/-- The alignment of a struct depends on its name and its attributes only. -/
theorem alignment_congr {s s' : StructDef} (hname : s.name = s'.name) (hattributes : s.attributes = s'.attributes)
    (natural : Nat) : alignment s natural = alignment s' natural := by
  unfold alignment
  rw [hname, hattributes]

/-- The alignment of a struct is what it asks for, or else what its fields ask for. -/
theorem alignment_eq_ok {s : StructDef} {natural align : Nat} (h : alignment s natural = .ok align) :
    (s.attributes.get? "force_align" = none ∧ align = natural) ∨
      ∃ raw, s.attributes.get? "force_align" = some raw ∧ readUnsigned? 64 (trimmed raw) = some align ∧
        isPowerOfTwo align = true ∧ natural ≤ align ∧ align ≤ maxForcedAlignment := by
  unfold alignment at h
  split at h
  next hnone =>
    cases h
    exact .inl ⟨hnone, rfl⟩
  next raw hraw =>
    dsimp only at h
    split at h
    next => cases h
    next n hn =>
      obtain ⟨hok, h⟩ := ite_error_eq_ok.1 h
      cases h
      simp only [Bool.and_eq_true, decide_eq_true_eq] at hok
      exact .inr ⟨raw, hraw, hn, hok.1.1, hok.1.2, hok.2⟩

end Layout

/-! ## Pieces of fields -/

section Flat

variable {s : Schema} {t : TypeDesc}

/-- A flat type is no array. -/
theorem TypeDesc.Flat.not_array (h : t.Flat s) : t.isArray = false := by
  rw [Bool.eq_false_iff, ne_eq, TypeDesc.isArray_iff]
  intro hb
  rcases h with ⟨hscalar, _⟩ | ⟨hs, _⟩
  · rw [TypeDesc.isScalar, hb] at hscalar
    cases hscalar
  · rw [TypeDesc.isStruct_iff, hb] at hs
    cases hs

/-- The room of what is no array. -/
theorem Schema.inline_flat (h : t.isArray = false) :
    s.inlineSize t = flatSize s.structs t ∧ s.inlineAlignment t = flatAlignment s.structs t := by
  unfold Schema.inlineSize Schema.inlineAlignment FlatSchema.inlineSize FlatSchema.inlineAlignment
  simp [h]

/-- A scalar takes as many bytes as its base type, and is aligned to them. -/
theorem Schema.inline_scalar (h : t.isScalar = true) : s.inlineSize t = t.base.size ∧ s.inlineAlignment t = t.base.size := by
  have hstruct : t.base ≠ .struct := fun hb => by
    rw [TypeDesc.isScalar, hb] at h
    cases h
  have harray : t.isArray = false := Bool.eq_false_iff.2 fun ha => TypeDesc.not_isScalar_of_isArray ha h
  obtain ⟨hsize, halign⟩ := Schema.inline_flat (s := s) harray
  rw [hsize, halign, (Layout.flat_eq s.structs t).1, (Layout.flat_eq s.structs t).2, if_neg hstruct, if_neg hstruct]
  exact ⟨rfl, rfl⟩

/-- A fixed struct takes its bytes, and is aligned as it says. -/
theorem Schema.inline_struct {d : StructDef} (h : t.isStruct = true) (hd : s.structOf? t = some d)
    (hfixed : d.fixed = true) : s.inlineSize t = d.byteSize ∧ s.inlineAlignment t = d.minAlign := by
  have harray : t.isArray = false := Bool.eq_false_iff.2 fun ha => TypeDesc.not_isStruct_of_isArray ha h
  have hd' : t.structRef.bind (s.structs[·]?) = some d := hd
  obtain ⟨hsize, halign⟩ := Schema.inline_flat (s := s) harray
  rw [hsize, halign, flatSize, flatAlignment, TypeDesc.isStruct_iff.1 h]
  simp [hd', hfixed]

/-- An array is as large as its elements together, and aligned as they are. -/
theorem Schema.inline_array (h : t.isArray = true) (he : t.elementType.Flat s) :
    s.inlineSize t = s.inlineSize t.elementType * t.length ∧ s.inlineAlignment t = s.inlineAlignment t.elementType := by
  have helem : t.element ≠ .array := fun hb => by
    have hno := he.not_array
    rw [TypeDesc.isArray, show t.elementType.base = .array from hb] at hno
    nomatch hno
  obtain ⟨hsize, halign⟩ := Schema.inline_flat (s := s) he.not_array
  rw [hsize, halign]
  unfold Schema.inlineSize Schema.inlineAlignment FlatSchema.inlineSize FlatSchema.inlineAlignment
  rw [if_pos h, if_pos h, if_neg helem, if_neg helem]
  exact ⟨rfl, rfl⟩

/-- A flat type has an alignment if the struct that it may be has one. -/
theorem TypeDesc.Flat.isAlignment (ht : t.Flat s)
    (hinner : ∀ inner, t.isStruct = true → s.structOf? t = some inner → inner.fixed = true →
      Layout.IsAlignment inner.minAlign) : Layout.IsAlignment (s.inlineAlignment t) := by
  rcases ht with ⟨hscalar, _⟩ | ⟨hs, inner, hi, hfixed⟩
  · rw [(Schema.inline_scalar hscalar).2]
    exact .scalar hscalar
  · rw [(Schema.inline_struct hs hi hfixed).2]
    exact hinner inner hs hi hfixed

end Flat

/-- The pieces of a field: the elements of an array, each at its place, or else the field itself. -/
inductive FieldDef.Piece (s : Schema) (f : FieldDef) : Nat → TypeDesc → Nat → Prop
  | whole (h : f.type.isArray = false) : Piece s f 0 f.type f.offset
  | element {j : Nat} (h : f.type.isArray = true) (hj : j < f.type.length) :
    Piece s f j f.type.elementType (f.offset + j * s.inlineSize f.type.elementType)

/-- The pieces of a field are told by their indices. -/
theorem FieldDef.Piece.unique {s : Schema} {f : FieldDef} {j o o' : Nat} {t t' : TypeDesc} (h : f.Piece s j t o)
    (h' : f.Piece s j t' o') : t = t' ∧ o = o' := by
  cases h with
  | whole hno =>
    cases h' with
    | whole => exact ⟨rfl, rfl⟩
    | element hyes => exact absurd (hyes.symm.trans hno) Bool.noConfusion
  | element hyes =>
    cases h' with
    | whole hno => exact absurd (hyes.symm.trans hno) Bool.noConfusion
    | element => exact ⟨rfl, rfl⟩

/-- There is one piece with a given index in the field at a given place. -/
theorem FieldDef.Piece.same {s : Schema} {d : StructDef} {k j o o' : Nat} {f f' : FieldDef} {t t' : TypeDesc}
    (h : f.Piece s j t o) (hf : d.fields[k]? = some f) (hf' : d.fields[k]? = some f') (h' : f'.Piece s j t' o') :
    f = f' ∧ t = t' ∧ o = o' := by
  rw [hf, Option.some.injEq] at hf'
  subst hf'
  exact ⟨rfl, h.unique h'⟩

/-- The scalars that a fixed struct holds, through structs and arrays in it: the path of fields and of indices in arrays that
leads to a scalar, its distance from the start of the struct, and its type. -/
inductive Leaf (s : Schema) : StructDef → List (Nat × Nat) → Nat → TypeDesc → Prop
  | scalar {d : StructDef} {k j o : Nat} {f : FieldDef} {t : TypeDesc} (hf : d.fields[k]? = some f) (hp : f.Piece s j t o)
    (ht : t.isScalar = true) : Leaf s d [(k, j)] o t
  | inside {d inner : StructDef} {k j o o' : Nat} {f : FieldDef} {t t' : TypeDesc} {path : List (Nat × Nat)}
    (hf : d.fields[k]? = some f) (hp : f.Piece s j t o) (ht : t.isStruct = true) (hi : s.structOf? t = some inner)
    (h : Leaf s inner path o' t') : Leaf s d ((k, j) :: path) (o + o') t'

/-- The reference layout of a fixed struct. -/
structure StructDef.LaidOut (s : Schema) (d : StructDef) : Prop where
  nonempty : d.fields ≠ []
  first : ∀ f, d.fields[0]? = some f → f.offset = 0
  next : ∀ (k : Nat) (f g : FieldDef), d.fields[k]? = some f → d.fields[k + 1]? = some g →
    g.offset = f.offset + s.inlineSize f.type + f.padding
  size : ∀ f, d.fields.getLast? = some f → d.byteSize = f.offset + s.inlineSize f.type + f.padding
  aligned : ∀ f ∈ d.fields, s.inlineAlignment f.type ∣ f.offset
  gap : ∀ (k : Nat) (f g : FieldDef), d.fields[k]? = some f → d.fields[k + 1]? = some g →
    f.padding < s.inlineAlignment g.type
  lastGap : ∀ f, d.fields.getLast? = some f → f.padding < d.minAlign
  power : ∃ k ≤ 4, d.minAlign = Nat.pow 2 k
  natural : d.attributes.get? "force_align" = none →
    (d.fields.map fun f => s.inlineAlignment f.type).max? = some d.minAlign
  forced : ∀ raw, d.attributes.get? "force_align" = some raw → readUnsigned? 64 (trimmed raw) = some d.minAlign
  multiple : ∀ f ∈ d.fields, s.inlineAlignment f.type ∣ d.minAlign
  whole : d.minAlign ∣ d.byteSize

/-- The fields of a fixed struct that has some stand in a row, and its alignment is the one that they or the struct ask for. -/
theorem Resolved.chain {doc : SchemaDoc} {names : NameTable} {declared : List StructDef} {s : Schema}
    (h : Resolved doc names declared s) {d : StructDef} (hd : d ∈ s.structs) (hfixed : d.fixed = true) (hne : d.fields ≠ []) :
    Layout.Chain s d.minAlign 0 d.fields d.byteSize ∧
      Layout.alignment d (Layout.naturalAlignment s.structs d.fields) = .ok d.minAlign := by
  obtain ⟨i, hi⟩ := List.mem_iff_getElem?.1 hd
  obtain ⟨d', hd', hu⟩ := h.placed.unplaced hi
  have hfixed' : d'.fixed = true := (StructDef.fixed_of_unplaced hu).symm.trans hfixed
  obtain ⟨d'', hd'', hplaced⟩ := h.placed.fixed i d' hd' hfixed'
  rw [hi, Option.some.injEq] at hd''
  subst hd''
  have hfields : d.fields.map FieldDef.unplaced = d'.fields.map FieldDef.unplaced := congrArg StructDef.fields hu
  have hne' : d'.fields ≠ [] := fun hnil => hne (List.map_eq_nil_iff.1 (hfields.trans (by rw [hnil]; rfl)))
  rw [Layout.naturalAlignment_unplaced hfields]
  obtain ⟨placed, stop, align, hplace, halign, heq⟩ := Layout.placeStruct_eq_ok hplaced
  have hzero := (h.struct_declared (List.mem_of_getElem? hd')).2
  have hname : d.name = d'.name := by rw [heq]
  have hattributes : d.attributes = d'.attributes := by rw [heq]
  constructor
  · rw [heq]
    exact Layout.chain_of_placeFields align hplace hne' hzero
  · rw [Layout.alignment_congr hname hattributes, halign, heq]

namespace Loaded

variable {doc : SchemaDoc} {names : NameTable} {declared : List StructDef} {s : Schema}

/-- A valid struct has fields, so they stand in a row. -/
theorem chain (h : Loaded doc names declared s) {d : StructDef} (hd : d ∈ s.structs) (hfixed : d.fixed = true) :
    d.fields ≠ [] ∧ Layout.Chain s d.minAlign 0 d.fields d.byteSize ∧
      Layout.alignment d (Layout.naturalAlignment s.structs d.fields) = .ok d.minAlign := by
  have hcheck := Validity.checkStruct_eq_ok.1 ((Schema.validate_eq_ok.1 h.valid).2.2.1 d hd)
  have hne := (Validity.checkFixed_eq_ok.1 (hcheck.1 hfixed)).1
  exact ⟨hne, h.resolved.chain hd hfixed hne⟩

/-- What a field of a fixed struct is made of: itself, or elements of an array. -/
theorem element_flat (h : Loaded doc names declared s) {d : StructDef} (hd : d ∈ s.structs) (hfixed : d.fixed = true)
    {f : FieldDef} (hf : f ∈ d.fields) :
    (f.type.isArray = false ∧ f.type.Flat s) ∨ (f.type.isArray = true ∧ f.type.elementType.Flat s) := by
  rcases Schema.fixedFields_of_validate h.valid d hd hfixed f hf with hflat | harray
  · exact .inl ⟨hflat.not_array, hflat⟩
  · exact .inr ⟨harray, (h.array hd hf harray).2.1⟩

/-- Structs have alignments. The induction is on the rank of the struct, which is above the ranks of the structs in it. -/
theorem isAlignment (h : Loaded doc names declared s) {rank : Nat → Nat} (hrank : Layout.Ranked s.structs rank) :
    ∀ (n i : Nat) (d : StructDef), rank i < n → s.structs[i]? = some d → d.fixed = true →
      Layout.IsAlignment d.minAlign ∧ ∀ f ∈ d.fields, Layout.IsAlignment (s.inlineAlignment f.type)
  | 0, _, _, hn, _, _ => absurd hn (Nat.not_lt_zero _)
  | n + 1, i, d, hn, hi, hfixed => by
    have hd := List.mem_of_getElem? hi
    have hfields : ∀ f ∈ d.fields, Layout.IsAlignment (s.inlineAlignment f.type) := by
      intro f hf
      -- the struct that a field or the elements of an array may be is a part, of lower rank
      have hpart : (f.type.isStruct || f.type.isArray) = true → ∀ inner, s.structOf? f.type = some inner →
          inner.fixed = true → Layout.IsAlignment inner.minAlign := by
        intro hkind inner hinner hinnerFixed
        obtain ⟨j, hj, hget⟩ := Schema.structOf?_eq_some.1 hinner
        have hlt := hrank.part i d hi hfixed f hf hkind j inner hj hget hinnerFixed
        exact (isAlignment h hrank n j inner (by omega) hget hinnerFixed).1
      rcases h.element_flat hd hfixed hf with ⟨_, hflat⟩ | ⟨harray, hflat⟩
      · exact hflat.isAlignment fun inner hs => hpart (by rw [hs, Bool.true_or]) inner
      · rw [(Schema.inline_array harray hflat).2]
        exact hflat.isAlignment fun inner _ => hpart (by rw [harray, Bool.or_true]) inner
    refine ⟨?_, hfields⟩
    obtain ⟨hne, _, halign⟩ := h.chain hd hfixed
    rcases Layout.alignment_eq_ok halign with ⟨_, hnatural⟩ | ⟨_, _, _, hpow, _, hmax⟩
    · have hmem := (List.max?_eq_some_iff.1
        (Layout.max?_naturalAlignment hne fun f hf => (hfields f hf).pos)).1
      obtain ⟨f, hf, heq⟩ := List.mem_map.1 hmem
      rw [hnatural, ← heq]
      exact hfields f hf
    · exact .of_isPowerOfTwo hpow hmax

/-- The alignments of fixed structs and of their fields are powers of two in range. -/
theorem fixed_isAlignment (h : Loaded doc names declared s) {d : StructDef} (hd : d ∈ s.structs) (hfixed : d.fixed = true) :
    Layout.IsAlignment d.minAlign ∧ ∀ f ∈ d.fields, Layout.IsAlignment (s.inlineAlignment f.type) := by
  obtain ⟨rank, hrank⟩ := h.placed.ranked
  obtain ⟨i, hi⟩ := List.mem_iff_getElem?.1 hd
  exact h.isAlignment hrank (rank i + 1) i d (Nat.lt_succ_self _) hi hfixed

/-- Every fixed struct has the reference layout. -/
theorem laidOut (h : Loaded doc names declared s) {d : StructDef} (hd : d ∈ s.structs) (hfixed : d.fixed = true) :
    d.LaidOut s := by
  obtain ⟨hne, hchain, halign⟩ := h.chain hd hfixed
  obtain ⟨hstruct, hfields⟩ := h.fixed_isAlignment hd hfixed
  have hpos : ∀ f ∈ d.fields, 0 < s.inlineAlignment f.type := fun f hf => (hfields f hf).pos
  have hmax := Layout.max?_naturalAlignment hne hpos
  -- a forced alignment is never below the natural one, so the struct is aligned for each of its fields
  have hle : ∀ f ∈ d.fields, s.inlineAlignment f.type ≤ d.minAlign := by
    intro f hf
    have hnatural := (List.max?_eq_some_iff.1 hmax).2 _ (List.mem_map.2 ⟨f, hf, rfl⟩)
    rcases Layout.alignment_eq_ok halign with ⟨_, heq⟩ | ⟨_, _, _, _, hge, _⟩
    · rw [heq]
      exact hnatural
    · exact Nat.le_trans hnatural hge
  obtain ⟨last, hlast⟩ : ∃ f, d.fields.getLast? = some f := ⟨_, List.getLast?_eq_some_getLast hne⟩
  refine {
    nonempty := hne
    first := ?_
    next := fun k f g hf hg => (hchain.next hpos hf hg).1
    size := fun f hf => (hchain.final hstruct.pos hf).1
    aligned := hchain.aligned hpos (Nat.dvd_zero _)
    gap := fun k f g hf hg => (hchain.next hpos hf hg).2
    lastGap := fun f hf => (hchain.final hstruct.pos hf).2.1
    power := hstruct
    natural := ?_
    forced := ?_
    multiple := fun f hf => (hfields f hf).dvd_of_le hstruct (hle f hf)
    whole := (hchain.final hstruct.pos hlast).2.2 }
  · intro f hf
    cases hlist : d.fields with
    | nil => exact absurd hlist hne
    | cons g rest =>
      rw [hlist] at hf hchain
      cases hf
      exact hchain.1
  · intro hnone
    rcases Layout.alignment_eq_ok halign with ⟨_, heq⟩ | ⟨raw, hraw, _⟩
    · rw [heq]
      exact hmax
    · rw [hnone] at hraw
      nomatch hraw
  · intro raw hraw
    rcases Layout.alignment_eq_ok halign with ⟨hnone, _⟩ | ⟨raw', hraw', hread, _⟩
    · rw [hraw] at hnone
      nomatch hnone
    · rw [hraw, Option.some.injEq] at hraw'
      rw [hraw']
      exact hread

/-- The size of what is flat is a multiple of its alignment, so that it can be repeated. -/
theorem flat_dvd (h : Loaded doc names declared s) {t : TypeDesc} (ht : t.Flat s) : s.inlineAlignment t ∣ s.inlineSize t := by
  rcases ht with ⟨hscalar, _⟩ | ⟨hs, inner, hi, hfixed⟩
  · obtain ⟨hsize, halign⟩ := Schema.inline_scalar (s := s) hscalar
    exact halign.trans hsize.symm ▸ Nat.dvd_refl _
  · obtain ⟨hsize, halign⟩ := Schema.inline_struct hs hi hfixed
    rw [hsize, halign]
    exact (h.laidOut (Schema.mem_of_structOf? hi) hfixed).whole

/-- A piece of a field is flat and aligned, and it lies inside the field. -/
theorem piece (h : Loaded doc names declared s) {d : StructDef} (hd : d ∈ s.structs) (hfixed : d.fixed = true)
    {f : FieldDef} (hf : f ∈ d.fields) {j o : Nat} {t : TypeDesc} (hp : f.Piece s j t o) :
    t.Flat s ∧ s.inlineAlignment t = s.inlineAlignment f.type ∧ s.inlineAlignment t ∣ o ∧ f.offset ≤ o ∧
      o + s.inlineSize t ≤ f.offset + s.inlineSize f.type := by
  have hoffset := (h.laidOut hd hfixed).aligned f hf
  rcases h.element_flat hd hfixed hf with ⟨hno, hflat⟩ | ⟨hyes, hflat⟩
  · cases hp with
    | whole => exact ⟨hflat, rfl, hoffset, Nat.le_refl _, Nat.le_refl _⟩
    | element hyes => exact absurd (hyes.symm.trans hno) Bool.noConfusion
  · cases hp with
    | whole hno => exact absurd (hyes.symm.trans hno) Bool.noConfusion
    | @element j _ hj =>
      obtain ⟨hsize, halign⟩ := Schema.inline_array hyes hflat
      rw [halign] at hoffset
      refine ⟨hflat, halign.symm, ?_, Nat.le_add_right _ _, ?_⟩
      · exact Nat.dvd_add hoffset (Nat.dvd_mul_left_of_dvd (h.flat_dvd hflat) j)
      · have hroom := Nat.mul_le_mul_right (s.inlineSize f.type.elementType) (Nat.succ_le_of_lt hj)
        rw [Nat.succ_mul] at hroom
        rw [hsize, Nat.mul_comm (s.inlineSize f.type.elementType)]
        omega

/-- Different pieces of a struct lie apart. -/
theorem pieces_disjoint (h : Loaded doc names declared s) {d : StructDef} (hd : d ∈ s.structs) (hfixed : d.fixed = true)
    {k k' j j' o o' : Nat} {f f' : FieldDef} {t t' : TypeDesc} (hf : d.fields[k]? = some f) (hf' : d.fields[k']? = some f')
    (hp : f.Piece s j t o) (hp' : f'.Piece s j' t' o') (hne : (k, j) ≠ (k', j')) :
    o + s.inlineSize t ≤ o' ∨ o' + s.inlineSize t' ≤ o := by
  obtain ⟨_, hchain, _⟩ := h.chain hd hfixed
  obtain ⟨_, _, _, hlow, hhigh⟩ := h.piece hd hfixed (List.mem_of_getElem? hf) hp
  obtain ⟨_, _, _, hlow', hhigh'⟩ := h.piece hd hfixed (List.mem_of_getElem? hf') hp'
  rcases Nat.lt_trichotomy k k' with hlt | rfl | hgt
  · have := hchain.ordered hf hf' hlt
    omega
  · rw [hf, Option.some.injEq] at hf'
    subst hf'
    -- within one field: elements of an array, at different indices
    cases hp with
    | whole hno =>
      cases hp' with
      | whole => exact absurd rfl hne
      | element hyes => exact absurd (hyes.symm.trans hno) Bool.noConfusion
    | element hyes _ =>
      cases hp' with
      | whole hno => exact absurd (hyes.symm.trans hno) Bool.noConfusion
      | element _ _ =>
        rcases Nat.lt_or_gt_of_ne (fun hj : j = j' => hne (by rw [hj])) with hlt | hgt
        · have := Nat.mul_le_mul_right (s.inlineSize f.type.elementType) (Nat.succ_le_of_lt hlt)
          rw [Nat.succ_mul] at this
          omega
        · have := Nat.mul_le_mul_right (s.inlineSize f.type.elementType) (Nat.succ_le_of_lt hgt)
          rw [Nat.succ_mul] at this
          omega
  · have := hchain.ordered hf' hf hgt
    omega

/-- A scalar stands at a multiple of its size, which divides the alignment of the struct around it, and inside that struct. -/
theorem leaf_aligned (h : Loaded doc names declared s) {d : StructDef} {path : List (Nat × Nat)} {o : Nat} {t : TypeDesc}
    (hleaf : Leaf s d path o t) : d ∈ s.structs → d.fixed = true →
      t.base.size ∣ o ∧ t.base.size ∣ d.minAlign ∧ o + t.base.size ≤ d.byteSize := by
  induction hleaf with
  | @scalar d k j o f t hf hp ht =>
    intro hd hfixed
    have hf := List.mem_of_getElem? hf
    obtain ⟨_, halign, hdvd, _, hroom⟩ := h.piece hd hfixed hf hp
    obtain ⟨hsize, hscalar⟩ := Schema.inline_scalar (s := s) ht
    have hfit := ((h.chain hd hfixed).2.1.fits f hf).2
    have hmul := (h.laidOut hd hfixed).multiple f hf
    rw [← halign, hscalar] at hmul
    rw [hscalar] at hdvd
    exact ⟨hdvd, hmul, by omega⟩
  | @inside d inner k j o o' f t t' path hf hp ht hi _ ih =>
    intro hd hfixed
    have hf := List.mem_of_getElem? hf
    obtain ⟨hflat, halign, hdvd, _, hroom⟩ := h.piece hd hfixed hf hp
    obtain ⟨hget, hinner⟩ := hflat.inner ht hi
    obtain ⟨hsize, hminAlign⟩ := Schema.inline_struct ht hi hinner
    -- the struct inside is aligned for what it holds, and the struct around it for the struct inside
    obtain ⟨hdvd', hmul', hroom'⟩ := ih hget hinner
    have hfit := ((h.chain hd hfixed).2.1.fits f hf).2
    have hmul := (h.laidOut hd hfixed).multiple f hf
    rw [hminAlign] at hdvd halign
    rw [← halign] at hmul
    exact ⟨Nat.dvd_add (Nat.dvd_trans hmul' hdvd) hdvd', Nat.dvd_trans hmul' hmul, by omega⟩

/-- A scalar lies in the piece that the path to it starts with. -/
theorem leaf_in_piece (h : Loaded doc names declared s) {d : StructDef} (hd : d ∈ s.structs) (hfixed : d.fixed = true)
    {k j o : Nat} {path : List (Nat × Nat)} {t : TypeDesc} (hleaf : Leaf s d ((k, j) :: path) o t) :
    ∃ f u m, d.fields[k]? = some f ∧ f.Piece s j u m ∧ m ≤ o ∧ o + t.base.size ≤ m + s.inlineSize u := by
  cases hleaf with
  | @scalar _ _ _ _ f _ hf hp ht =>
    exact ⟨f, t, o, hf, hp, Nat.le_refl _, Nat.le_of_eq (by rw [(Schema.inline_scalar ht).1])⟩
  | @inside _ inner _ _ m o' f u _ _ hf hp hu hi hleaf =>
    obtain ⟨hflat, _⟩ := h.piece hd hfixed (List.mem_of_getElem? hf) hp
    obtain ⟨hget, hinner⟩ := hflat.inner hu hi
    have hroom := (h.leaf_aligned hleaf hget hinner).2.2
    refine ⟨f, u, m, hf, hp, Nat.le_add_right _ _, ?_⟩
    rw [(Schema.inline_struct hu hi hinner).1]
    omega

/-- Scalars in different pieces of a struct share no byte. -/
theorem leaves_disjoint_of_parting (h : Loaded doc names declared s) {d : StructDef} (hd : d ∈ s.structs) (hfixed : d.fixed = true)
    {k j k' j' o o' : Nat} {p q : List (Nat × Nat)} {t t' : TypeDesc} (hp : Leaf s d ((k, j) :: p) o t)
    (hq : Leaf s d ((k', j') :: q) o' t') (hne : (k, j) ≠ (k', j')) : o + t.base.size ≤ o' ∨ o' + t'.base.size ≤ o := by
  obtain ⟨f, u, m, hf, hpiece, hlow, hhigh⟩ := h.leaf_in_piece hd hfixed hp
  obtain ⟨f', u', m', hf', hpiece', hlow', hhigh'⟩ := h.leaf_in_piece hd hfixed hq
  have hapart := h.pieces_disjoint hd hfixed hf hf' hpiece hpiece' hne
  omega

/-- Different scalars of a struct share no byte: the paths to them part at some struct, where they lie in different pieces. -/
theorem leaves_disjoint (h : Loaded doc names declared s) {d : StructDef} {p : List (Nat × Nat)} {o : Nat} {t : TypeDesc}
    (hp : Leaf s d p o t) : d ∈ s.structs → d.fixed = true →
      ∀ {q : List (Nat × Nat)} {o' : Nat} {t' : TypeDesc}, Leaf s d q o' t' → p ≠ q →
        o + t.base.size ≤ o' ∨ o' + t'.base.size ≤ o := by
  -- the induction is on the first path, and follows the second as long as they are in the same piece
  induction hp with
  | @scalar d k j o f t hf hpiece ht =>
    intro hd hfixed q o' t' hq hne
    cases hq with
    | scalar hf' hpiece' ht' =>
      exact h.leaves_disjoint_of_parting hd hfixed (.scalar hf hpiece ht) (.scalar hf' hpiece' ht') fun heq => hne (by rw [heq])
    | inside hf' hpiece' hu hi hleaf =>
      refine h.leaves_disjoint_of_parting hd hfixed (.scalar hf hpiece ht) (.inside hf' hpiece' hu hi hleaf) fun heq => ?_
      cases heq
      obtain ⟨rfl, rfl, rfl⟩ := hpiece.same hf hf' hpiece'
      exact TypeDesc.not_isStruct_of_isScalar ht hu
  | @inside d inner k j m o f u t path hf hpiece hu hi hleaf ih =>
    intro hd hfixed q o' t' hq hne
    cases hq with
    | scalar hf' hpiece' ht' =>
      refine h.leaves_disjoint_of_parting hd hfixed (.inside hf hpiece hu hi hleaf) (.scalar hf' hpiece' ht') fun heq => ?_
      cases heq
      obtain ⟨rfl, rfl, rfl⟩ := hpiece.same hf hf' hpiece'
      exact TypeDesc.not_isStruct_of_isScalar ht' hu
    | @inside _ inner' k' j' m' o₁ f' u' _ path' hf' hpiece' hu' hi' hleaf' =>
      by_cases heq : (k, j) = (k', j')
      · cases heq
        obtain ⟨rfl, rfl, rfl⟩ := hpiece.same hf hf' hpiece'
        rw [hi, Option.some.injEq] at hi'
        subst hi'
        obtain ⟨hflat, _⟩ := h.piece hd hfixed (List.mem_of_getElem? hf) hpiece
        obtain ⟨hget, hinner⟩ := hflat.inner hu hi
        have hapart := ih hget hinner hleaf' fun hpath => hne (by rw [hpath])
        omega
      · exact h.leaves_disjoint_of_parting hd hfixed (.inside hf hpiece hu hi hleaf) (.inside hf' hpiece' hu' hi' hleaf') heq

end Loaded

/-- In a schema that a document gives every fixed struct has the reference layout. Every scalar in it, however deep, stands at a
multiple of its size from the start of the struct, and the alignment of the struct is a multiple of that size too; different
scalars lie apart. -/
theorem Schema.ofDocument_laidOut {doc : SchemaDoc} {s : Schema} (h : Schema.ofDocument doc = .ok s) {d : StructDef}
    (hd : d ∈ s.structs) (hfixed : d.fixed = true) :
    d.LaidOut s ∧
      (∀ path o t, Leaf s d path o t → t.base.size ∣ o ∧ t.base.size ∣ d.minAlign ∧ o + t.base.size ≤ d.byteSize) ∧
      ∀ p q o o' t t', Leaf s d p o t → Leaf s d q o' t' → p ≠ q → o + t.base.size ≤ o' ∨ o' + t'.base.size ≤ o := by
  obtain ⟨names, declared, h⟩ := Schema.ofDocument_loaded h
  refine ⟨h.laidOut hd hfixed, ?_, ?_⟩
  · intro path o t hleaf
    exact h.leaf_aligned hleaf hd hfixed
  · intro p q o o' t t' hp hq hne
    exact h.leaves_disjoint hp hd hfixed hq hne

/-- In the second element of an array of structs, eight bytes from its start, stands a scalar of eight bytes. -/
theorem sampleDoc_laidOut : ∃ s d, Schema.ofDocument sampleDoc = .ok s ∧ d ∈ s.structs ∧ d.fixed = true ∧ d.byteSize = 64 ∧
    d.LaidOut s ∧ Leaf s d [(2, 1), (1, 0)] 48 (.plain .double) ∧ (TypeDesc.plain .double).base.size ∣ 48 := by
  obtain ⟨s, hs, hlook⟩ := Schema.exists_ofDocument sampleDoc
    (fun s => s.structs.map fun d => (d.fixed, d.byteSize, d.fields.map fun f => (f.type, f.offset)))
    [(true, 64, [(.enumeration .ubyte 0, 0), (.record 1, 8), (.arrayOf (.record 1) 2, 24), (.arrayOf (.plain .short) 3, 56)]),
      (true, 16, [(.plain .byte, 0), (.plain .double, 8)]),
      (false, 0, [(.record 0, 4), (.discriminant 1, 6), (.union 1, 8), (.vectorOf (.discriminant 1), 10),
        (.vectorOf (.union 1), 12), (.enumeration .ubyte 0, 14), (.vectorOf (.plain .ubyte), 16)])] (by decide +kernel)
  have houter := congrArg (·[0]?) hlook
  have hinner := congrArg (·[1]?) hlook
  simp only [List.getElem?_map, List.getElem?_cons_zero, List.getElem?_cons_succ, Option.map_eq_some_iff,
    Prod.mk.injEq] at houter hinner
  obtain ⟨d, hd, hfixed, hsize, hfields⟩ := houter
  obtain ⟨e, he, hfixed', hsize', hfields'⟩ := hinner
  have hgrid := congrArg (·[2]?) hfields
  have hb := congrArg (·[1]?) hfields'
  simp only [List.getElem?_map, List.getElem?_cons_zero, List.getElem?_cons_succ, Option.map_eq_some_iff,
    Prod.mk.injEq] at hgrid hb
  obtain ⟨f, hf, hft, hfo⟩ := hgrid
  obtain ⟨g, hg, hgt, hgo⟩ := hb
  have hmem := List.mem_of_getElem? hd
  have hroom : s.inlineSize f.type.elementType = 16 := by
    rw [hft, (Schema.inline_struct rfl (Schema.structOf?_eq_some.2 ⟨1, rfl, he⟩) hfixed').1, hsize']
  have hgrid : f.Piece s 1 f.type.elementType 40 := by
    have hp := FieldDef.Piece.element (s := s) (f := f) (j := 1) (by rw [hft]; rfl) (by rw [hft]; decide)
    rwa [hroom, hfo] at hp
  have hleaf : Leaf s e [(1, 0)] 8 (.plain .double) := by
    have hp := FieldDef.Piece.whole (s := s) (f := g) (by rw [hgt]; rfl)
    rw [hgt, hgo] at hp
    exact .scalar hg hp rfl
  have hdeep : Leaf s d [(2, 1), (1, 0)] 48 (.plain .double) :=
    .inside hf hgrid (by rw [hft]; rfl) (by rw [hft]; exact Schema.structOf?_eq_some.2 ⟨1, rfl, he⟩) hleaf
  obtain ⟨hlaid, haligned, _⟩ := Schema.ofDocument_laidOut hs hmem hfixed
  exact ⟨s, d, hs, hmem, hfixed, hsize, hlaid, hdeep, (haligned _ _ _ hdeep).1⟩

end FlatSchema

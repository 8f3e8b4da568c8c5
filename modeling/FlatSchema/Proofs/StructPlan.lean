import FlatSchema.Proofs.Builder

/-!
# Plans put values where they are read

The steps of a struct's plan, run by a builder, fill the struct from its end to its start. The invariant is about parts of a
struct (`Writes`): the steps of a part take the counter over the bytes of the part, insert nothing, and leave the counter at each
value where its distance from the start of the struct says. Parts next to each other add up to a larger part, a struct inside a
struct is a part of it, and so are the turns of a loop over an array.
-/

namespace FlatSchema

open Builder

/-! ## Where values are read -/

/-- The distance from the start of a struct to the value at the end of a path of fields. -/
def pathOffset : List FieldDef → Nat
  | [] => 0
  | f :: rest => f.offset + pathOffset rest

theorem pathOffset_append_singleton (path : List FieldDef) (f : FieldDef) :
    pathOffset (path ++ [f]) = pathOffset path + f.offset := by
  induction path with
  | nil => exact Nat.add_comm f.offset 0
  | cons g rest ih => rw [List.cons_append, pathOffset, pathOffset, ih, Nat.add_assoc]

namespace StructParam

/-- The bytes between the elements of the array around a parameter. -/
def elementSize (s : Schema) (p : StructParam) : Nat :=
  match p.span with
  | none => 0
  | some span =>
    match p.path[span.fieldIndex]? with
    | some f => s.inlineSize f.type.elementType
    | none => 0

/-- Where a parameter is read: the distance from the start of the struct to its element at some index, if it stands in an
array, or to its only value. -/
def offsetAt (s : Schema) (p : StructParam) (i : Nat) : Nat := pathOffset p.path + i * p.elementSize s

/-- Whether a parameter has a value inside loops at given indices: one index in its array, or none without an array. -/
def HasIndex (p : StructParam) (indices : List Nat) : Prop :=
  match p.span with
  | none => indices = []
  | some array => ∃ i < array.length, indices = [i]

end StructParam

/-! ## Parts of a struct -/

/-- What writing a parameter leaves: the counter stands at the value, seen from the counter at the start of the struct. Inside
an array that stands in the struct the index counts; an array around the struct is not seen from here. -/
def Written (s : Schema) (d : StructDef) (path : List FieldDef) (span : Option ArraySpan) (top : Nat) (e : Event) : Prop :=
  ∀ p, e.action.param = some p → path <+: p.path ∧
    ((e.action.indices = [] ∧ p.span = span ∧ e.stop + pathOffset p.path = top + pathOffset path) ∨
      (HasArray s d ∧ ∃ i array, e.action.indices = [i] ∧ p.span = some array ∧ i < array.length ∧
        e.stop + p.offsetAt s i = top + pathOffset path))

/-- A struct without arrays writes its values in no loop of its own. -/
theorem Written.of_no_array {s : Schema} {d : StructDef} (hflat : ¬HasArray s d) {path : List FieldDef}
    {span : Option ArraySpan} {top : Nat} {e : Event} (he : Written s d path span top e) :
    ∀ p, e.action.param = some p → path <+: p.path ∧
      e.action.indices = [] ∧ p.span = span ∧ e.stop + pathOffset p.path = top + pathOffset path := by
  intro p hp
  obtain ⟨hpath, hone | ⟨harray, _⟩⟩ := he p hp
  · exact ⟨hpath, hone⟩
  · exact absurd harray hflat

/-- Every value of a parameter is written. -/
def Covered (s : Schema) (d : StructDef) (span : Option ArraySpan) (as : List Action) (p : StructParam) : Prop :=
  (p.span = span ∧ ∃ a ∈ as, a.param = some p ∧ a.indices = []) ∨
    (HasArray s d ∧ ∃ array, p.span = some array ∧ ∀ i < array.length, ∃ a ∈ as, a.param = some p ∧ a.indices = [i])

theorem Covered.mono {s : Schema} {d : StructDef} {span : Option ArraySpan} {as as' : List Action} {p : StructParam}
    (h : Covered s d span as p) (hsub : as ⊆ as') : Covered s d span as' p := by
  rcases h with ⟨hspan, a, ha, hrest⟩ | ⟨harray, array, hspan, hall⟩
  · exact .inl ⟨hspan, a, hsub ha, hrest⟩
  · refine .inr ⟨harray, array, hspan, fun i hi => ?_⟩
    obtain ⟨a, ha, hrest⟩ := hall i hi
    exact ⟨a, hsub ha, hrest⟩

/-- Steps write a part of a struct: the bytes between two distances from its start. -/
def Writes (s : Schema) (d : StructDef) (path : List FieldDef) (span : Option ArraySpan) (ops : List BuildOp)
    (params : List StructParam) (low high : Nat) : Prop :=
  ∃ as, Emits ops params.reverse as ∧
    (∀ n k top, n + high = top → k + low = top → d.minAlign ∣ top → Fills as n k (Written s d path span top)) ∧
    ∀ p ∈ params, Covered s d span as p

namespace Writes

variable {s : Schema} {d : StructDef} {path : List FieldDef} {span : Option ArraySpan}

/-- Parts next to each other. The later one is written first. -/
theorem append {ops ops' : List BuildOp} {params params' : List StructParam} {low mid high : Nat}
    (h : Writes s d path span ops params mid high) (h' : Writes s d path span ops' params' low mid) (hle : mid ≤ high) :
    Writes s d path span (ops ++ ops') (params' ++ params) low high := by
  obtain ⟨as, hemits, hfills, hcovers⟩ := h
  obtain ⟨as', hemits', hfills', hcovers'⟩ := h'
  refine ⟨as ++ as', ?_, ?_, ?_⟩
  · rw [List.reverse_append]
    exact .append hemits hemits'
  · intro n k top hn hk halign
    exact (hfills n (n + (high - mid)) top hn (by omega) halign).append (hfills' _ k top (by omega) hk halign)
  · intro p hp
    rcases List.mem_append.1 hp with hp | hp
    · exact (hcovers' p hp).mono (List.subset_append_right as as')
    · exact (hcovers p hp).mono (List.subset_append_left as as')

/-- Nothing is between a distance and itself. -/
theorem nil (o : Nat) : Writes s d path span [] [] o o := by
  refine ⟨[], .nil, ?_, fun p hp => absurd hp List.not_mem_nil⟩
  intro n k top hn hk _
  have hnk : n = k := by omega
  exact hnk ▸ .nil

/-- The alignment of the struct is in place when its end is. -/
theorem prep : Writes s d path span [.prep d.minAlign d.byteSize] [] d.byteSize d.byteSize := by
  refine ⟨_, .prep _ _, ?_, fun p hp => absurd hp List.not_mem_nil⟩
  intro n k top hn hk halign
  have hnk : n = k := by omega
  subst hnk
  exact .prep (hn ▸ halign) fun p hp => nomatch hp

/-- The padding after a field. -/
theorem pad (count o : Nat) :
    Writes s d path span (if count = 0 then [] else [.pad count]) [] o (o + count) := by
  by_cases hzero : count = 0
  · rw [if_pos hzero, hzero]
    exact nil o
  · rw [if_neg hzero]
    refine ⟨_, .pad count, ?_, fun p hp => absurd hp List.not_mem_nil⟩
    intro n k top hn hk _
    have hnk : k = n + count := by omega
    subst hnk
    exact .pad fun p hp => nomatch hp

variable {f : FieldDef}

/-- What lies at a multiple of a number from the start of the struct is aligned when the struct is. -/
theorem dvd_counter {a k o top : Nat} (hk : k + o = top) (hstruct : a ∣ d.minAlign) (ho : a ∣ o) (htop : d.minAlign ∣ top) :
    a ∣ k := by
  have h : a ∣ k + o := hk ▸ Nat.dvd_trans hstruct htop
  exact (Nat.dvd_add_left ho).1 h

/-- A field that is a scalar. -/
theorem scalar {name : String} (hoffset : f.type.base.size ∣ f.offset) (hstruct : f.type.base.size ∣ d.minAlign) :
    Writes s d path span [.put name f.type span.isSome] [{ name, path := path ++ [f], type := f.type, span }]
      f.offset (f.offset + f.type.base.size) := by
  refine ⟨_, .put { name, path := path ++ [f], type := f.type, span }, ?_, ?_⟩
  · intro n k top hn hk halign
    refine .put (by dsimp only; omega) (dvd_counter hk hstruct hoffset halign) ?_
    rintro p ⟨⟩
    refine ⟨List.prefix_append _ _, .inl ⟨rfl, rfl, ?_⟩⟩
    dsimp only
    rw [pathOffset_append_singleton]
    omega
  · intro p hp
    rw [List.mem_singleton] at hp
    subst hp
    exact .inl ⟨rfl, _, List.mem_cons_self, rfl, rfl⟩

/-- A field that is a struct: what is written inside it is written inside the struct around it. -/
theorem inner {inner : StructDef} {ops : List BuildOp} {params : List StructParam} (hf : f ∈ d.fields)
    (hs : f.type.isStruct = true) (hi : s.structOf? f.type = some inner) (hoffset : inner.minAlign ∣ f.offset)
    (hstruct : inner.minAlign ∣ d.minAlign) (h : Writes s inner (path ++ [f]) span ops params 0 inner.byteSize) :
    Writes s d path span ops params f.offset (f.offset + inner.byteSize) := by
  obtain ⟨as, hemits, hfills, hcovers⟩ := h
  refine ⟨as, hemits, ?_, ?_⟩
  · intro n k top hn hk halign
    refine (hfills n k k (by omega) rfl (dvd_counter hk hstruct hoffset halign)).imp ?_
    intro e he p hp
    obtain ⟨hpath, he⟩ := he p hp
    rw [pathOffset_append_singleton] at he
    refine ⟨(List.prefix_append _ _).trans hpath, he.imp ?_ ?_⟩
    · rintro ⟨hindices, hspan, hstop⟩
      exact ⟨hindices, hspan, by omega⟩
    · rintro ⟨harray, i, array, hindices, hspan, hlt, hstop⟩
      exact ⟨.inside hf hs hi harray, i, array, hindices, hspan, hlt, by omega⟩
  · intro p hp
    rcases hcovers p hp with hone | ⟨harray, hall⟩
    · exact .inl hone
    · exact .inr ⟨.inside hf hs hi harray, hall⟩

/-- A field that is an array. The body writes one element, and it stands in no other loop. -/
theorem array (ofStructs : Bool) {body : List BuildOp} {params : List StructParam} {as : List Action}
    (hf : f ∈ d.fields) (ha : f.type.isArray = true)
    (hoffset : s.inlineAlignment f.type.elementType ∣ f.offset) (hstruct : s.inlineAlignment f.type.elementType ∣ d.minAlign)
    (hrepeat : s.inlineAlignment f.type.elementType ∣ s.inlineSize f.type.elementType)
    (hemits : Emits body params.reverse as)
    (hfills : ∀ n m, n + s.inlineSize f.type.elementType = m → s.inlineAlignment f.type.elementType ∣ m →
      Fills as n m fun e => ∀ p, e.action.param = some p → path ++ [f] <+: p.path ∧ e.action.indices = [] ∧
        p.span = some ⟨path.length, f.type.length, ofStructs⟩ ∧ e.stop + pathOffset p.path = m + pathOffset (path ++ [f]))
    (hcovers : ∀ p ∈ params, p.span = some ⟨path.length, f.type.length, ofStructs⟩ ∧
      ∃ a ∈ as, a.param = some p ∧ a.indices = []) :
    Writes s d path span (.beginArray f.type.length :: body ++ [.endArray]) params
      f.offset (f.offset + s.inlineSize f.type.elementType * f.type.length) := by
  refine ⟨_, .loop hemits, ?_, ?_⟩
  · intro n k top hn hk halign
    have hk' := dvd_counter hk hstruct hoffset halign
    have hturns : n + f.type.length * s.inlineSize f.type.elementType = k := by
      rw [Nat.mul_comm]
      omega
    -- the turns go down from the last element; `m` is the counter behind the one that is written in turn `i`
    refine (Fills.loop (P := fun i e => ∃ m, m + i * s.inlineSize f.type.elementType = k ∧
      ∀ p, e.action.param = some p → path ++ [f] <+: p.path ∧ e.action.indices = [] ∧
        p.span = some ⟨path.length, f.type.length, ofStructs⟩ ∧
        e.stop + pathOffset p.path = m + pathOffset (path ++ [f])) ?_ hturns).imp ?_
    · intro i _ n' m hn' hm
      have hm' : s.inlineAlignment f.type.elementType ∣ m := by
        rw [← hm] at hk'
        exact (Nat.dvd_add_left (Nat.dvd_mul_left_of_dvd hrepeat i)).1 hk'
      exact (hfills n' m hn' hm').imp fun e he => ⟨m, hm, he⟩
    · rintro e ⟨i, hi, e, ⟨m, hm, he⟩, rfl⟩ p hp
      obtain ⟨hpath, hindices, hspan, hstop⟩ := he p hp
      -- how far the elements lie apart is read from the field at which the path enters the array
      have hfield : p.path[path.length]? = some f := by
        obtain ⟨rest, hrest⟩ := hpath
        rw [← hrest]
        simp
      have hsize : p.elementSize s = s.inlineSize f.type.elementType := by
        simp only [StructParam.elementSize, hspan, hfield]
      refine ⟨(List.prefix_append _ _).trans hpath, .inr ⟨.here hf ha, i, _, ?_, hspan, hi, ?_⟩⟩
      · exact congrArg (i :: ·) hindices
      · rw [pathOffset_append_singleton] at hstop
        rw [StructParam.offsetAt, hsize]
        show e.stop + _ = _
        omega
  · intro p hp
    obtain ⟨hspan, a, ha', hparam, hindices⟩ := hcovers p hp
    refine .inr ⟨.here hf ha, _, hspan, fun i hi => ⟨a.under i, mem_repeatDown.2 ⟨i, hi, a, ha', rfl⟩, hparam, ?_⟩⟩
    exact congrArg (i :: ·) hindices

end Writes

/-! ## Fields -/

namespace StructPlan

/-- The steps that write the value of a field. -/
def valueOps (s : Schema) (depth : Nat) (inArray : Bool) (name : String) (t : TypeDesc) : List BuildOp :=
  if t.isStruct then
    match s.structOf? t with
    | some inner => opsOf s depth inner (name ++ "_") inArray
    | none => []
  else if t.isArray then
    .beginArray t.length :: (match t.elementType.isStruct, s.structOf? t.elementType with
      | true, some inner => opsOf s depth inner (name ++ "_") true
      | _, _ => [.put name t.elementType true]) ++ [.endArray]
  else [.put name t inArray]

/-- The parameters of a field. -/
def fieldParams (s : Schema) (depth : Nat) (path : List FieldDef) (span : Option ArraySpan) (name : String) (f : FieldDef) :
    List StructParam :=
  if f.type.isStruct then
    match s.structOf? f.type with
    | some inner => paramsOf s depth inner (name ++ "_") (path ++ [f]) span
    | none => []
  else if f.type.isArray then
    match f.type.elementType.isStruct, s.structOf? f.type.elementType with
    | true, some inner => paramsOf s depth inner (name ++ "_") (path ++ [f])
        (some ⟨path.length, f.type.length, f.type.elementType.isStruct⟩)
    | _, _ => [{ name, path := path ++ [f], type := f.type.elementType,
                 span := some ⟨path.length, f.type.length, f.type.elementType.isStruct⟩ }]
  else [{ name, path := path ++ [f], type := f.type, span }]

/-- The steps of a struct after the first, which aligns it. -/
def fieldOps (s : Schema) (depth : Nat) (d : StructDef) (lead : String) (inArray : Bool) : List BuildOp :=
  d.fields.reverse.flatMap fun f =>
    (if f.padding = 0 then [] else [.pad f.padding]) ++ valueOps s depth inArray (lead ++ f.name) f.type

theorem paramsOf_succ (s : Schema) (depth : Nat) (d : StructDef) (lead : String) (path : List FieldDef)
    (span : Option ArraySpan) : paramsOf s (depth + 1) d lead path span =
      d.fields.flatMap fun f => fieldParams s depth path span (lead ++ f.name) f := rfl

end StructPlan

/-- Fields in a row are written from the last to the first. -/
theorem Writes.fields {s : Schema} {d : StructDef} {path : List FieldDef} {span : Option ArraySpan} {last : Nat}
    {ops : FieldDef → List BuildOp} {params : FieldDef → List StructParam} :
    ∀ {fields : List FieldDef} {position stop : Nat}, Layout.Chain s last position fields stop →
      (∀ f ∈ fields, Writes s d path span (ops f) (params f) f.offset (f.offset + s.inlineSize f.type + f.padding)) →
      Writes s d path span (fields.reverse.flatMap ops) (fields.flatMap params) position stop
  | [], position, stop, hchain, _ => by
    cases hchain
    exact .nil _
  | f :: rest, position, stop, ⟨hoffset, _, hrest⟩, hfields => by
    have hlater := Writes.fields hrest fun g hg => hfields g (List.mem_cons_of_mem f hg)
    have hfirst := hfields f List.mem_cons_self
    rw [hoffset] at hfirst
    rw [List.reverse_cons, List.flatMap_append, List.flatMap_singleton, List.flatMap_cons]
    exact hlater.append hfirst hrest.start_le

namespace Loaded

variable {doc : SchemaDoc} {names : NameTable} {declared : List StructDef} {s : Schema}

/-- An array is written, if the structs that its elements may be are. -/
theorem writes_array (h : Loaded doc names declared s) {d : StructDef} (hd : d ∈ s.structs) (hfixed : d.fixed = true)
    {f : FieldDef} (hf : f ∈ d.fields) (hyes : f.type.isArray = true) (hflat : f.type.elementType.Flat s) (depth : Nat)
    (name : String) (path : List FieldDef) (span : Option ArraySpan)
    (hinner : ∀ inner, s.structOf? f.type = some inner → inner.fixed = true → ∀ path span,
      Writes s inner path span (StructPlan.opsOf s depth inner (name ++ "_") span.isSome)
        (StructPlan.paramsOf s depth inner (name ++ "_") path span) 0 inner.byteSize) :
    Writes s d path span (StructPlan.valueOps s depth span.isSome name f.type)
      (StructPlan.fieldParams s depth path span name f) f.offset (f.offset + s.inlineSize f.type) := by
  have hlaid := h.laidOut hd hfixed
  have hoffset := hlaid.aligned f hf
  have hstruct := hlaid.multiple f hf
  obtain ⟨hsize, halign⟩ := Schema.inline_array hyes hflat
  have hnotStruct := TypeDesc.not_isStruct_of_isArray hyes
  unfold StructPlan.valueOps StructPlan.fieldParams
  rw [if_neg hnotStruct, if_neg hnotStruct, if_pos hyes, if_pos hyes, hsize]
  rw [halign] at hoffset hstruct
  have hrepeat := h.flat_dvd hflat
  rcases hflat with ⟨hscalar, _⟩ | ⟨hs, inner, hi, hfixed'⟩
  · have hkind : f.type.elementType.isStruct = false := Bool.eq_false_iff.2 (TypeDesc.not_isStruct_of_isScalar hscalar)
    obtain ⟨hsize', halign'⟩ := Schema.inline_scalar (s := s) hscalar
    simp only [hkind]
    refine .array false hf hyes hoffset hstruct hrepeat
      (.put ⟨name, path ++ [f], f.type.elementType, some ⟨path.length, f.type.length, false⟩⟩) ?_ ?_
    · intro n m hn hm
      refine .put (by rw [← hsize']; exact hn) (by rw [← halign']; exact hm) ?_
      rintro p ⟨⟩
      exact ⟨List.prefix_refl _, rfl, rfl, rfl⟩
    · intro p hp
      rw [List.mem_singleton] at hp
      subst hp
      exact ⟨rfl, _, List.mem_cons_self, rfl, rfl⟩
  · obtain ⟨hsize', halign'⟩ := Schema.inline_struct hs hi hfixed'
    -- the structs in an array hold no array, so nothing in them stands in a loop of its own
    have hnone := (h.array hd hf hyes).2.2 inner hi
    simp only [hs, hi]
    obtain ⟨as, hemits, hfills, hcovers⟩ := hinner inner hi hfixed' (path ++ [f]) (some ⟨path.length, f.type.length, true⟩)
    refine .array true hf hyes hoffset hstruct hrepeat hemits ?_ ?_
    · intro n m hn hm
      refine (hfills n m m (by rw [← hsize']; exact hn) rfl (by rw [← halign']; exact hm)).imp ?_
      intro e he
      exact he.of_no_array hnone
    · intro p hp
      rcases hcovers p hp with hone | ⟨harray, _⟩
      · exact hone
      · exact absurd harray hnone

/-- The value of a field is written, if the structs that it may hold are. -/
theorem writes_value (h : Loaded doc names declared s) {d : StructDef} (hd : d ∈ s.structs) (hfixed : d.fixed = true)
    {f : FieldDef} (hf : f ∈ d.fields) (depth : Nat) (name : String) (path : List FieldDef) (span : Option ArraySpan)
    (hinner : (f.type.isStruct || f.type.isArray) = true → ∀ inner, s.structOf? f.type = some inner → inner.fixed = true →
      ∀ path span, Writes s inner path span (StructPlan.opsOf s depth inner (name ++ "_") span.isSome)
        (StructPlan.paramsOf s depth inner (name ++ "_") path span) 0 inner.byteSize) :
    Writes s d path span (StructPlan.valueOps s depth span.isSome name f.type)
      (StructPlan.fieldParams s depth path span name f) f.offset (f.offset + s.inlineSize f.type) := by
  have hlaid := h.laidOut hd hfixed
  have hoffset := hlaid.aligned f hf
  have hstruct := hlaid.multiple f hf
  rcases h.element_flat hd hfixed hf with ⟨hno, hscalar | ⟨hs, inner, hi, hfixed'⟩⟩ | ⟨hyes, hflat⟩
  · obtain ⟨hscalar, _⟩ := hscalar
    obtain ⟨hsize, halign⟩ := Schema.inline_scalar (s := s) hscalar
    unfold StructPlan.valueOps StructPlan.fieldParams
    rw [if_neg (TypeDesc.not_isStruct_of_isScalar hscalar), if_neg (TypeDesc.not_isStruct_of_isScalar hscalar), hno,
      if_neg Bool.false_ne_true, if_neg Bool.false_ne_true, hsize]
    rw [halign] at hoffset hstruct
    exact .scalar hoffset hstruct
  · obtain ⟨hsize, halign⟩ := Schema.inline_struct hs hi hfixed'
    unfold StructPlan.valueOps StructPlan.fieldParams
    rw [if_pos hs, if_pos hs, hi, hsize]
    rw [halign] at hoffset hstruct
    exact .inner hf hs hi hoffset hstruct (hinner (by rw [hs, Bool.true_or]) inner hi hfixed' _ _)
  · exact h.writes_array hd hfixed hf hyes hflat depth name path span (hinner (by rw [hyes, Bool.or_true]))

/-- The fields of a struct are written, if the structs inside it are. -/
theorem writes_fields (h : Loaded doc names declared s) {d : StructDef} (hd : d ∈ s.structs) (hfixed : d.fixed = true)
    {depth : Nat} (hinner : ∀ f ∈ d.fields, (f.type.isStruct || f.type.isArray) = true → ∀ inner,
      s.structOf? f.type = some inner → inner.fixed = true → ∀ lead path span,
        Writes s inner path span (StructPlan.opsOf s depth inner lead span.isSome)
          (StructPlan.paramsOf s depth inner lead path span) 0 inner.byteSize)
    (lead : String) (path : List FieldDef) (span : Option ArraySpan) :
    Writes s d path span (StructPlan.fieldOps s depth d lead span.isSome)
      (StructPlan.paramsOf s (depth + 1) d lead path span) 0 d.byteSize := by
  rw [StructPlan.paramsOf_succ, StructPlan.fieldOps]
  refine Writes.fields (h.chain hd hfixed).2.1 ?_
  intro f hf
  have hvalue := h.writes_value hd hfixed hf depth (lead ++ f.name) path span fun hkind inner hi hfixed' =>
    hinner f hf hkind inner hi hfixed' _
  have hboth := (Writes.pad f.padding _).append hvalue (Nat.le_add_right _ _)
  rwa [List.append_nil] at hboth

/-- The steps of a struct write it from its end to its start. The induction is on the depth, which stays above the ranks of the
structs inside. -/
theorem writes (h : Loaded doc names declared s) {rank : Nat → Nat} (hrank : Layout.Ranked s.structs rank) (depth : Nat) :
    ∀ {i : Nat} {d : StructDef}, rank i ≤ depth → s.structs[i]? = some d → d.fixed = true →
      ∀ (lead : String) (path : List FieldDef) (span : Option ArraySpan),
        Writes s d path span (StructPlan.fieldOps s depth d lead span.isSome)
          (StructPlan.paramsOf s (depth + 1) d lead path span) 0 d.byteSize := by
  induction depth with
  | zero =>
    intro i d hle hi hfixed
    refine h.writes_fields (List.mem_of_getElem? hi) hfixed ?_
    intro f hf hkind inner hinner hfixed'
    obtain ⟨j, hj, hget⟩ := Schema.structOf?_eq_some.1 hinner
    have hlt := hrank.part i d hi hfixed f hf hkind j inner hj hget hfixed'
    omega
  | succ depth ih =>
    intro i d hle hi hfixed
    refine h.writes_fields (List.mem_of_getElem? hi) hfixed ?_
    intro f hf hkind inner hinner hfixed' lead path span
    obtain ⟨j, hj, hget⟩ := Schema.structOf?_eq_some.1 hinner
    have hlt := hrank.part i d hi hfixed f hf hkind j inner hj hget hfixed'
    have hwhole := Writes.prep.append (ih (by omega) hget hfixed' lead path span) (Nat.le_refl _)
    rwa [List.append_nil] at hwhole

theorem plan_writes (h : Loaded doc names declared s) {d : StructDef} (hd : d ∈ s.structs) (hfixed : d.fixed = true) :
    Writes s d [] none (StructPlan.fieldOps s s.structs.length d "" false) (StructPlan.of s d).params 0 d.byteSize := by
  obtain ⟨rank, hrank⟩ := h.placed.ranked
  obtain ⟨i, hi⟩ := List.mem_iff_getElem?.1 hd
  have hlt := hrank.lt i d hi hfixed
  exact h.writes hrank s.structs.length (Nat.le_of_lt hlt) hi hfixed "" [] none

end Loaded

/-! ## Whole plans -/

/-- Seen from the start of a struct that is not inside another, a value that is written is one at an index. -/
theorem Written.at_index {s : Schema} {d : StructDef} {top : Nat} {e : Event} (h : Written s d [] none top e) {p : StructParam}
    (hp : e.action.param = some p) :
    p.HasIndex e.action.indices ∧ e.stop + p.offsetAt s (e.action.indices.headD 0) = top := by
  obtain ⟨_, ⟨hindices, hspan, hstop⟩ | ⟨_, i, array, hindices, hspan, hlt, hstop⟩⟩ := h p hp
  · rw [hindices]
    refine ⟨by simp only [StructParam.HasIndex, hspan], ?_⟩
    simpa [StructParam.offsetAt, pathOffset] using hstop
  · rw [hindices]
    refine ⟨by simp only [StructParam.HasIndex, hspan]; exact ⟨i, hlt, rfl⟩, ?_⟩
    simpa [pathOffset] using hstop

/-- Every value of a parameter of a struct that is not inside another is written. -/
theorem Covered.at_index {s : Schema} {d : StructDef} {as : List Action} {p : StructParam} (h : Covered s d none as p)
    {indices : List Nat} (hi : p.HasIndex indices) : ∃ a ∈ as, a.param = some p ∧ a.indices = indices := by
  unfold StructParam.HasIndex at hi
  rcases h with ⟨hspan, a, ha, hparam, hnone⟩ | ⟨_, array, hspan, hall⟩
  · rw [hspan] at hi
    exact ⟨a, ha, hparam, hnone.trans hi.symm⟩
  · rw [hspan] at hi
    obtain ⟨i, hlt, rfl⟩ := hi
    exact hall i hlt

/-- The run of a plan. The first step aligns the struct; after it nothing is inserted, and the run ends a whole struct later. Steps
that write a value write one of a parameter, and every value of a parameter is written, when the counter stands as far from the end of
the run as the value is read from the start of the struct. -/
theorem Loaded.plan_run {doc : SchemaDoc} {names : NameTable} {declared : List StructDef} {s : Schema}
    (h : Loaded doc names declared s) {d : StructDef} (hd : d ∈ s.structs) (hfixed : d.fixed = true) (n₀ : Nat) :
    puts (StructPlan.of s d).ops = (StructPlan.of s d).params.reverse.map (fun p => (p.name, p.type, p.span.isSome)) ∧
      ∃ first rest n₁, exec n₀ (actions (StructPlan.of s d)) = first :: rest ∧
        first.action.op = .prep d.minAlign d.byteSize ∧
        first.stop = n₁ ∧ n₁ = n₀ + gap (n₀ + d.byteSize) d.minAlign ∧
        finish n₀ (actions (StructPlan.of s d)) = n₁ + d.byteSize ∧
        (∀ e ∈ rest, e.inserted = 0) ∧
        (∀ e ∈ rest, ∀ name t inArray, e.action.op = .put name t inArray →
          ∃ p ∈ (StructPlan.of s d).params, e.action.param = some p ∧ name = p.name ∧ t = p.type ∧
            p.HasIndex e.action.indices ∧ e.stop + p.offsetAt s (e.action.indices.headD 0) = n₁ + d.byteSize) ∧
        ∀ p ∈ (StructPlan.of s d).params, ∀ indices, p.HasIndex indices →
          ∃ e ∈ rest, e.action.op = .put p.name p.type p.span.isSome ∧ e.action.param = some p ∧ e.action.indices = indices ∧
            e.stop + p.offsetAt s (indices.headD 0) = n₁ + d.byteSize := by
  obtain ⟨as, hemits, hfills, hcovers⟩ := h.plan_writes hd hfixed
  have hwhole : Emits (StructPlan.of s d).ops (StructPlan.of s d).params.reverse
      (⟨.prep d.minAlign d.byteSize, none, []⟩ :: as) := Emits.append (.prep d.minAlign d.byteSize) hemits
  have hactions : actions (StructPlan.of s d) = ⟨.prep d.minAlign d.byteSize, none, []⟩ :: as := by
    have hunroll := hwhole.unroll_label [] [] [] []
    rw [List.append_nil, List.append_nil] at hunroll
    exact hunroll
  -- the first step fills the gap up to the alignment, and from there the counters are those of the layout
  have halign : d.minAlign ∣ n₀ + gap (n₀ + d.byteSize) d.minAlign + d.byteSize := by
    have hgap := (gap_spec (h.fixed_isAlignment hd hfixed).1.pos (n₀ + d.byteSize)).1
    rw [Nat.add_right_comm]
    exact Nat.dvd_of_mod_eq_zero hgap
  obtain ⟨hfinish, hevents⟩ := hfills (n₀ + gap (n₀ + d.byteSize) d.minAlign) _ _ rfl rfl halign
  rw [hactions]
  refine ⟨hwhole.puts_eq, _, _, _, rfl, rfl, rfl, rfl, hfinish, fun e he => (hevents e he).1, ?_, ?_⟩
  · intro e he name t inArray hop
    have hmem : e.action ∈ as := by
      rw [← exec_map_action (n₀ + gap (n₀ + d.byteSize) d.minAlign) as]
      exact List.mem_map_of_mem he
    obtain ⟨p, hp⟩ := hemits.param_of_put e.action hmem name t inArray hop
    obtain ⟨hparam, hput⟩ := hemits.of_param e.action hmem p hp
    rw [hop] at hput
    cases hput
    exact ⟨p, List.mem_reverse.1 hparam, hp, rfl, rfl, (hevents e he).2.at_index hp⟩
  · intro p hp indices hindices
    obtain ⟨a, ha, hparam, hat⟩ := (hcovers p hp).at_index hindices
    have hput := (hemits.of_param a ha p hparam).2
    rw [← exec_map_action (n₀ + gap (n₀ + d.byteSize) d.minAlign) as] at ha
    obtain ⟨e, he, rfl⟩ := List.mem_map.1 ha
    have hstop := ((hevents e he).2.at_index hparam).2
    rw [hat] at hstop
    exact ⟨e, he, hput, hparam, hat, hstop⟩

end FlatSchema

import FlatSchema.Plan.Table
import FlatSchema.Proofs.HiddenFields
import FlatSchema.Proofs.LayoutComplete
import FlatSchema.Proofs.RenamedResolution

/-!
# Schema evolution

A schema evolves by new fields behind those of its tables, and by fields of its tables that are deprecated. What such a document
declares for a field does not depend on the fields behind it, and a discriminant is deprecated with its union, so every field of a
table keeps its slot, its type and its default (`StructDef.Grows`). Fixed structs see no table, so they stay as they are. What is
left of the order in which a table is built is the order that was there before.
-/

namespace FlatSchema

/-! ## Documents -/

/-- A declared field is as it was, or it is deprecated now. -/
def FieldDoc.Retires (f f' : FieldDoc) : Prop := f' = f ∨ f' = { f with deprecated := true }

/-- A table has new fields behind those that it had, which may be deprecated now. A fixed struct is as it was. -/
structure StructDoc.Evolves (d d' : StructDoc) : Prop where
  rest : d' = { d with fields := d'.fields }
  fixed : d.fixed = true → d'.fields = d.fields
  fields : ∃ kept appended, d'.fields = kept ++ appended ∧ List.Forall₂ FieldDoc.Retires d.fields kept

/-- A document declares the same definitions, and its tables have evolved. -/
structure SchemaDoc.Evolves (doc doc' : SchemaDoc) : Prop where
  rest : doc' = { doc with structs := doc'.structs }
  structs : List.Forall₂ StructDoc.Evolves doc.structs doc'.structs

/-! ## Definitions -/

/-- A field is as it was, or it is deprecated now. -/
def FieldDef.Retires (f f' : FieldDef) : Prop := f' = f ∨ f' = { f with deprecated := true }

/-- A table has new fields behind those that it had, which may be deprecated now; new fields may bring a key. A fixed struct is as
it was. -/
structure StructDef.Grows (d d' : StructDef) : Prop where
  rest : d' = { d with fields := d'.fields, hasKey := d'.hasKey }
  fixed : d.fixed = true → d' = d
  fields : ∃ kept appended, d'.fields = kept ++ appended ∧ List.Forall₂ FieldDef.Retires d.fields kept

/-- Lists whose elements are related one by one, by their places. -/
theorem forall₂_iff_getElem? {α β : Type} {R : α → β → Prop} {xs : List α} {ys : List β} :
    List.Forall₂ R xs ys ↔
      xs.length = ys.length ∧ ∀ (i : Nat) (x : α) (y : β), xs[i]? = some x → ys[i]? = some y → R x y := by
  rw [List.forall₂_iff_get]
  refine and_congr_right fun _ => ⟨fun h i x y hx hy => ?_, fun h i hx hy => ?_⟩
  · obtain ⟨hi, rfl⟩ := List.getElem?_eq_some_iff.1 hx
    obtain ⟨hj, rfl⟩ := List.getElem?_eq_some_iff.1 hy
    exact h i hi hj
  · exact h i _ _ (List.getElem?_eq_getElem hx) (List.getElem?_eq_getElem hy)

/-- An element of one list has its related element in the other. -/
theorem exists_of_forall₂ {α β : Type} {R : α → β → Prop} {xs : List α} {ys : List β} (h : List.Forall₂ R xs ys) {i : Nat}
    {x : α} (hx : xs[i]? = some x) : ∃ y, ys[i]? = some y ∧ R x y := by
  obtain ⟨hlen, hat⟩ := forall₂_iff_getElem?.1 h
  have hi : i < ys.length := hlen ▸ (List.getElem?_eq_some_iff.1 hx).1
  exact ⟨ys[i], List.getElem?_eq_getElem hi, hat i x _ hx (List.getElem?_eq_getElem hi)⟩

theorem FieldDef.retires_refl (fs : List FieldDef) : List.Forall₂ FieldDef.Retires fs fs :=
  List.forall₂_same.2 fun _ _ => .inl rfl

/-! ## Resolution -/

namespace Resolve

variable {names : NameTable} {enums : List EnumDef} {scope : Namespace} {owner : String}

/-- A field that is deprecated gives what it gave, deprecated with its discriminant. -/
theorem fieldGroup_retires {decl decl' : FieldDoc} (hdecl : decl.Retires decl') {group group' : List FieldDef}
    (h : fieldGroup names enums scope owner decl = .ok group) (h' : fieldGroup names enums scope owner decl' = .ok group') :
    List.Forall₂ FieldDef.Retires group group' := by
  rcases hdecl with rfl | rfl
  · rw [h] at h'
    cases h'
    exact FieldDef.retires_refl group
  · obtain ⟨t, ht, h⟩ := bind_eq_ok.1 h
    obtain ⟨hidden, hhidden, h⟩ := bind_eq_ok.1 h
    obtain ⟨f, hf, h⟩ := bind_eq_ok.1 h
    cases h
    obtain ⟨t', ht', h'⟩ := bind_eq_ok.1 h'
    obtain ⟨hidden', hhidden', h'⟩ := bind_eq_ok.1 h'
    obtain ⟨f', hf', h'⟩ := bind_eq_ok.1 h'
    cases h'
    rw [ht] at ht'
    cases ht'
    obtain ⟨constant, found, hconstant, hfound, rfl⟩ := field_eq_ok hf
    obtain ⟨constant', found', hconstant', hfound', rfl⟩ := field_eq_ok hf'
    rw [hconstant] at hconstant'
    cases hconstant'
    rw [hfound] at hfound'
    cases hfound'
    refine List.rel_append ?_ (.cons (.inr rfl) .nil)
    -- whether there is a hidden field is told by the type, which has not changed
    rcases hiddenFields_eq_ok hhidden with ⟨hu, rfl⟩ | ⟨i, hu, hi, rfl⟩
    · rcases hiddenFields_eq_ok hhidden' with ⟨_, rfl⟩ | ⟨_, hu', _, _⟩
      · exact .nil
      · rw [hu] at hu'
        cases hu'
    · rcases hiddenFields_eq_ok hhidden' with ⟨hu', _⟩ | ⟨j, _, hj, rfl⟩
      · rw [hu] at hu'
        cases hu'
      · rw [hi] at hj
        cases hj
        exact .cons (.inr rfl) .nil

/-- Fields that stay or retire have hidden fields that do the same. -/
theorem groups_retire {docs docs' : List FieldDoc} (hdocs : List.Forall₂ FieldDoc.Retires docs docs') :
    ∀ {groups groups' : List (List FieldDef)}, docs.mapM (fieldGroup names enums scope owner) = .ok groups →
      docs'.mapM (fieldGroup names enums scope owner) = .ok groups' →
      List.Forall₂ (List.Forall₂ FieldDef.Retires) groups groups' := by
  simp only [mapM_eq_ok_iff]
  induction hdocs with
  | nil =>
    intro groups groups' h h'
    cases h
    cases h'
    exact .nil
  | cons hdecl _ ih =>
    intro groups groups' h h'
    obtain ⟨group, rest, hgroup, hrest, rfl⟩ := List.forall₂_cons_left_iff.1 h
    obtain ⟨group', rest', hgroup', hrest', rfl⟩ := List.forall₂_cons_left_iff.1 h'
    exact .cons (fieldGroup_retires hdecl hgroup hgroup') (ih hrest hrest')

/-- What the fields of an evolved table are: those that it had, and others behind them. -/
theorem fields_grow {taken taken' : List String} {docs kept appended : List FieldDoc} {fs fs' : List FieldDef}
    (hdocs : List.Forall₂ FieldDoc.Retires docs kept) (h : fields names enums scope owner taken docs = .ok fs)
    (h' : fields names enums scope owner taken' (kept ++ appended) = .ok fs') :
    ∃ early late, fs' = early ++ late ∧ List.Forall₂ FieldDef.Retires fs early := by
  obtain ⟨groups, hgroups, rfl⟩ := fields_groups h
  obtain ⟨groups', hgroups', rfl⟩ := fields_groups h'
  rw [List.mapM_append] at hgroups'
  obtain ⟨early, hearly, hgroups'⟩ := bind_eq_ok.1 hgroups'
  obtain ⟨late, _, hgroups'⟩ := bind_eq_ok.1 hgroups'
  cases hgroups'
  exact ⟨early.flatten, late.flatten, List.flatten_append, List.rel_flatten (groups_retire hdocs hgroups hearly)⟩

/-- A table that evolves grows. -/
theorem struct_grows {sd sd' : StructDoc} (hsd : sd.Evolves sd') {d d' : StructDef} (h : struct names enums sd = .ok d)
    (h' : struct names enums sd' = .ok d') : d.Grows d' := by
  obtain ⟨fields', rfl⟩ : ∃ fields', sd' = { sd with fields := fields' } := ⟨_, hsd.rest⟩
  obtain ⟨kept, appended, hfields, hkept⟩ := hsd.fields
  obtain ⟨fs, hfs, h⟩ := bind_eq_ok.1 h
  cases h
  obtain ⟨fs', hfs', h'⟩ := bind_eq_ok.1 h'
  cases h'
  refine ⟨rfl, fun hfixed => ?_, ?_⟩
  · have hsame : fields' = sd.fields := hsd.fixed hfixed
    rw [hsame] at hfs'
    cases hfs.symm.trans hfs'
    rfl
  · have hall : fields' = kept ++ appended := hfields
    rw [hall] at hfs'
    exact fields_grow hkept hfs hfs'

/-- The root is found by names and kinds. -/
theorem root_congr {structs structs' : List StructDef} (hname : structs'.map (·.name) = structs.map (·.name))
    (hfixed : structs'.map (·.fixed) = structs.map (·.fixed)) (declared : Option String) :
    root names structs' declared = root names structs declared := by
  have hindex : ∀ name, rootIndex? names structs' name = rootIndex? names structs name := by
    intro name
    refine Option.ext fun i => ?_
    simp only [rootIndex?_eq_some_iff, ← List.getElem?_map, hname]
  cases declared with
  | none => rfl
  | some name =>
    rw [root, root, hindex]
    simp only [← List.getElem?_map, hfixed]

end Resolve

/-- What related elements share, lists of them share. -/
theorem map_eq_of_forall₂ {α β : Type} {R : α → α → Prop} {g : α → β} (hg : ∀ x y, R x y → g y = g x) {xs ys : List α}
    (h : List.Forall₂ R xs ys) : ys.map g = xs.map g := by
  induction h with
  | nil => rfl
  | cons hxy _ ih => rw [List.map_cons, List.map_cons, hg _ _ hxy, ih]

/-- What related elements share with their places, lists of them share. -/
theorem map_zipIdx_eq_of_forall₂ {α β : Type} {R : α → α → Prop} {g : α × Nat → β}
    (hg : ∀ x y i, R x y → g (y, i) = g (x, i)) {xs ys : List α} (h : List.Forall₂ R xs ys) (start : Nat) :
    (ys.zipIdx start).map g = (xs.zipIdx start).map g := by
  induction h generalizing start with
  | nil => rfl
  | cons hxy _ ih => rw [List.zipIdx_cons, List.zipIdx_cons, List.map_cons, List.map_cons, hg _ _ _ hxy, ih]

/-- Evolution keeps the table of names. -/
theorem SchemaDoc.Evolves.nameTable {doc doc' : SchemaDoc} (h : doc.Evolves doc') :
    NameTable.ofDocument doc' = NameTable.ofDocument doc := by
  unfold NameTable.ofDocument NameTable.declarations
  rw [map_zipIdx_eq_of_forall₂ (fun d d' i hd => by rw [hd.rest]; rfl) h.structs 0, h.rest]

/-! ## Layout -/

theorem StructDef.Grows.refl (d : StructDef) : d.Grows d :=
  ⟨rfl, fun _ => rfl, d.fields, [], (List.append_nil _).symm, FieldDef.retires_refl _⟩

/-- A struct that grows does not become a table, nor the other way round. -/
theorem StructDef.Grows.fixed_eq {d d' : StructDef} (h : d.Grows d') : d'.fixed = d.fixed := by
  rw [h.rest]

/-- A field that is deprecated keeps its place, its type and its default. -/
theorem FieldDef.Retires.keeps {f f' : FieldDef} (h : f.Retires f') :
    f'.offset = f.offset ∧ f'.slot = f.slot ∧ f'.type = f.type ∧ f'.constant = f.constant := by
  rcases h with rfl | rfl
  · exact ⟨rfl, rfl, rfl, rfl⟩
  · exact ⟨rfl, rfl, rfl, rfl⟩

/-- A field is found where it was. -/
theorem StructDef.Grows.field {d d' : StructDef} (h : d.Grows d') {k : Nat} {f : FieldDef} (hf : d.fields[k]? = some f) :
    ∃ f', d'.fields[k]? = some f' ∧ f.Retires f' := by
  obtain ⟨kept, late, hfields, hkept⟩ := h.fields
  obtain ⟨f', hf', hretires⟩ := exists_of_forall₂ hkept hf
  refine ⟨f', ?_, hretires⟩
  rw [hfields, List.getElem?_append_left (List.getElem?_eq_some_iff.1 hf').1, hf']

/-- A field retires in its slot. -/
theorem FieldDef.Retires.inSlot {f f' : FieldDef} (h : f.Retires f') (k : Nat) : (f.inSlot k).Retires (f'.inSlot k) := by
  rcases h with rfl | rfl
  · exact .inl rfl
  · exact .inr rfl

namespace Layout

/-- Fields behind the others do not move them. -/
theorem grows_inSlots {fs fs' : List FieldDef}
    (h : ∃ kept appended, fs' = kept ++ appended ∧ List.Forall₂ FieldDef.Retires fs kept) :
    ∃ kept appended, fs'.mapIdx FieldDef.inSlot = kept ++ appended ∧
      List.Forall₂ FieldDef.Retires (fs.mapIdx FieldDef.inSlot) kept := by
  obtain ⟨kept, appended, rfl, hkept⟩ := h
  refine ⟨_, _, List.mapIdx_append, ?_⟩
  obtain ⟨hlen, hat⟩ := forall₂_iff_getElem?.1 hkept
  refine forall₂_iff_getElem?.2 ⟨by rw [List.length_mapIdx, List.length_mapIdx, hlen], fun i f f' hf hf' => ?_⟩
  rw [List.getElem?_mapIdx, Option.map_eq_some_iff] at hf hf'
  obtain ⟨g, hg, rfl⟩ := hf
  obtain ⟨g', hg', rfl⟩ := hf'
  exact (hat i g g' hg hg').inSlot i

/-- Declarations that grow have layouts that do. -/
theorem Placed.grows {declared declared' structs structs' : List StructDef} (h : Placed declared structs)
    (h' : Placed declared' structs') (hgrows : List.Forall₂ StructDef.Grows declared declared') :
    List.Forall₂ StructDef.Grows structs structs' := by
  obtain ⟨hlen, hat⟩ := forall₂_iff_getElem?.1 hgrows
  have hkinds : declared'.map (·.fixed) = declared.map (·.fixed) :=
    map_eq_of_forall₂ (fun d d' hd => hd.fixed_eq) hgrows
  have hkind : ∀ i, fixedAt declared' i = fixedAt declared i := by
    intro i
    rw [fixedAt, fixedAt, ← List.getElem?_map, ← List.getElem?_map, hkinds]
  have hsame : ∀ i, fixedAt declared i = true → declared'[i]? = declared[i]? := by
    intro i hi
    obtain ⟨d, hd, hfixed⟩ := getElem?_of_fixedAt hi
    obtain ⟨d', hd', _⟩ := getElem?_of_fixedAt ((hkind i).trans hi)
    rw [hd, hd', (hat i d d' hd hd').fixed hfixed]
  refine forall₂_iff_getElem?.2 ⟨by rw [h.length_eq, h'.length_eq, hlen], fun i d d' hd hd' => ?_⟩
  obtain ⟨e, he, _⟩ := h.unplaced hd
  obtain ⟨e', he', _⟩ := h'.unplaced hd'
  have hg := hat i e e' he he'
  cases hfixed : e.fixed with
  | true =>
    -- fixed structs do not change, and they are laid out by themselves
    have hboth := h.fixed_agree h' hkind hsame i ((fixedAt_of_getElem? he).trans hfixed)
    rw [hd, hd'] at hboth
    cases hboth
    exact .refl d
  | false =>
    -- the slots of a table are counted from the front, so those of its old fields stay
    obtain ⟨placed, hslots, hget⟩ := h.table i e he hfixed
    obtain ⟨placed', hslots', hget'⟩ := h'.table i e' he' (hg.fixed_eq.trans hfixed)
    rw [hd, Option.some.injEq] at hget
    rw [hd', Option.some.injEq] at hget'
    have hfields := grows_inSlots hg.fields
    have hplaced := placeSlots_eq_mapIdx hslots
    have hplaced' := placeSlots_eq_mapIdx hslots'
    simp only [Nat.zero_add] at hplaced hplaced'
    rw [← hplaced, ← hplaced'] at hfields
    obtain ⟨fields, key, rfl⟩ : ∃ fields key, e' = { e with fields := fields, hasKey := key } := ⟨_, _, hg.rest⟩
    rw [hget, hget']
    exact ⟨rfl, fun hyes => absurd (hfixed.symm.trans hyes) Bool.noConfusion, hfields⟩

end Layout

/-- The definitions of a schema grow with the document. -/
theorem Loaded.grows {doc doc' : SchemaDoc} {names names' : NameTable} {declared declared' : List StructDef} {s s' : Schema}
    (h : Loaded doc names declared s) (hdoc : doc.Evolves doc') (h' : Loaded doc' names' declared' s') :
    s'.enums = s.enums ∧ s'.root = s.root ∧ List.Forall₂ StructDef.Grows s.structs s'.structs := by
  have hnames : names' = names := by
    have hboth := h'.table
    rw [hdoc.nameTable, h.table] at hboth
    exact (Except.ok.inj hboth).symm
  have henums : s'.enums = s.enums := by
    have hboth := h'.enums
    rw [hdoc.rest, hnames, h.enums] at hboth
    exact (Except.ok.inj hboth).symm
  have hdeclared : List.Forall₂ StructDef.Grows declared declared' := by
    obtain ⟨hlen, hat⟩ := forall₂_iff_getElem?.1 hdoc.structs
    obtain ⟨hlen₁, hat₁⟩ := mapM_getElem? h.structs
    obtain ⟨hlen₂, hat₂⟩ := mapM_getElem? h'.structs
    refine forall₂_iff_getElem?.2 ⟨by rw [hlen₁, hlen₂, hlen], fun i d d' hd hd' => ?_⟩
    obtain ⟨sd, hsd, hd⟩ := hat₁ i d hd
    obtain ⟨sd', hsd', hd'⟩ := hat₂ i d' hd'
    rw [hnames, henums] at hd'
    exact Resolve.struct_grows (hat i sd sd' hsd hsd') hd hd'
  have hstructs := h.placed.grows h'.placed hdeclared
  -- the root is looked up by its name among the structs that have grown
  have hroot : s'.root = s.root := by
    have hboth := h'.root
    rw [hnames, hdoc.rest, Resolve.root_congr (map_eq_of_forall₂ (fun d d' hd => by rw [hd.rest]) hstructs)
      (map_eq_of_forall₂ (fun d d' hd => hd.fixed_eq) hstructs), h.root] at hboth
    exact (Except.ok.inj hboth).symm
  exact ⟨henums, hroot, hstructs⟩

/-! ## The order in which a table is built -/

/-- What is left of the order of a table depends on what is left of its fields. -/
theorem StructDef.createOrder_filter {d d' : StructDef} {P Q : FieldDef → Bool} (hsort : d'.sortBySize = d.sortBySize)
    (h : d'.liveFields.filter Q = d.liveFields.filter P) : d'.createOrder.filter Q = d.createOrder.filter P := by
  have hback : d'.liveFields.reverse.filter Q = d.liveFields.reverse.filter P := by
    rw [List.filter_reverse, List.filter_reverse, h]
  have hsized : ∀ (n : Nat) (fs : List FieldDef) (R : FieldDef → Bool),
      (fs.filter (fun f => f.type.base.size == n)).filter R = (fs.filter R).filter fun f => f.type.base.size == n := by
    intro n fs R
    rw [List.filter_filter, List.filter_filter]
    exact congrArg (List.filter · fs) (funext fun f => Bool.and_comm ..)
  unfold createOrder
  dsimp only
  rw [hsort]
  split
  next => simp only [List.filter_flatMap, hsized, hback]
  next => exact hback

/-- Lists of which the same is kept. -/
theorem filter_eq_filter {α : Type} {P Q : α → Bool} {xs ys : List α}
    (h : List.Forall₂ (fun x y => P x = Q y ∧ (P x = true → x = y)) xs ys) : xs.filter P = ys.filter Q := by
  induction h with
  | nil => rfl
  | @cons x y xs ys hxy _ ih =>
    obtain ⟨hkeep, hsame⟩ := hxy
    rw [List.filter_cons, List.filter_cons, ← hkeep, ih]
    by_cases hx : P x = true
    · rw [if_pos hx, if_pos hx, hsame hx]
    · rw [if_neg hx, if_neg hx]

namespace StructDef

/-- Whether a field stands behind the fields of an earlier table. -/
def appended (d : StructDef) (f : FieldDef) : Bool := decide (d.fields.length ≤ f.slot)

/-- Whether the field in the slot of a field was deprecated since an earlier table. -/
def retired (d d' : StructDef) (f : FieldDef) : Bool :=
  d.fields[f.slot]?.any (fun g => !g.deprecated) && d'.fields[f.slot]?.any (·.deprecated)

/-- What is neither new nor deprecated since is the same in both tables. -/
theorem Grows.liveFields_filter {d d' : StructDef} (h : d.Grows d')
    (hslot : ∀ (k : Nat) (f : FieldDef), d.fields[k]? = some f → f.slot = k)
    (hslot' : ∀ (k : Nat) (f : FieldDef), d'.fields[k]? = some f → f.slot = k) :
    d'.liveFields.filter (fun f => !(d.appended f || d.retired d' f)) = d.liveFields.filter fun f => !d.retired d' f := by
  obtain ⟨kept, late, hfields, hkept⟩ := h.fields
  obtain ⟨hlen, hat⟩ := forall₂_iff_getElem?.1 hkept
  -- what has been appended lies in slots behind all old ones
  have hlate : late.filter (fun f => !(d.appended f || d.retired d' f) && !f.deprecated) = [] := by
    refine List.filter_eq_nil_iff.2 fun f hf => ?_
    obtain ⟨k, hk⟩ := List.mem_iff_getElem?.1 hf
    have hnew : f.slot = kept.length + k := hslot' _ f (by rw [hfields, List.getElem?_append_right (by omega)]; simpa using hk)
    have happended : d.appended f = true := decide_eq_true (by omega)
    simp [happended]
  unfold liveFields
  rw [List.filter_filter, List.filter_filter, hfields, List.filter_append, hlate, List.append_nil]
  refine (filter_eq_filter (forall₂_iff_getElem?.2 ⟨hlen, fun k f f' hf hf' => ?_⟩)).symm
  have hthere : d'.fields[k]? = some f' := by
    rw [hfields, List.getElem?_append_left (List.getElem?_eq_some_iff.1 hf').1, hf']
  have hold : d.appended f' = false := by
    refine decide_eq_false ?_
    rw [hslot' k f' hthere]
    have := (List.getElem?_eq_some_iff.1 hf).1
    omega
  -- whether a slot has retired is told by the fields in it, before and after
  have hretired : ∀ g : FieldDef, g.slot = k → d.retired d' g = (!f.deprecated && f'.deprecated) := by
    intro g hg
    rw [retired, hg, hf, hthere]
    rfl
  rw [hretired f (hslot k f hf), hretired f' (hslot' k f' hthere), hold]
  rcases hat k f f' hf hf' with rfl | rfl
  · simp
  · simp

end StructDef

/-- Evolution keeps the wire format. Definitions keep their indices, enums and fixed structs are the same, and every field of a
table is where it was with its type and its default, at most deprecated. Without the fields that are new or deprecated since, a
table is built in the order in which it was built. -/
theorem Schema.ofDocument_evolves {doc doc' : SchemaDoc} {s s' : Schema} (hdoc : doc.Evolves doc')
    (h : Schema.ofDocument doc = .ok s) (h' : Schema.ofDocument doc' = .ok s') :
    s'.enums = s.enums ∧ s'.root = s.root ∧ s'.structs.length = s.structs.length ∧
    ∀ (i : Nat) (d : StructDef), s.structs[i]? = some d → ∃ d', s'.structs[i]? = some d' ∧
      d'.qualifiedName = d.qualifiedName ∧ d'.fixed = d.fixed ∧ (d.fixed = true → d' = d) ∧
      (d.fixed = false →
        (∀ (k : Nat) (f : FieldDef), d.fields[k]? = some f → ∃ f', d'.fields[k]? = some f' ∧ f.Retires f' ∧
          f'.offset = f.offset ∧ f'.slot = f.slot ∧ f'.type = f.type ∧ f'.constant = f.constant) ∧
        (∀ (k : Nat) (f : FieldDef), d'.fields[k]? = some f → f.slot = k) ∧
        d'.createOrder.filter (fun f => !(d.appended f || d.retired d' f)) =
          d.createOrder.filter fun f => !d.retired d' f) := by
  obtain ⟨names, declared, h⟩ := Schema.ofDocument_loaded h
  obtain ⟨names', declared', h'⟩ := Schema.ofDocument_loaded h'
  obtain ⟨henums, hroot, hstructs⟩ := h.grows hdoc h'
  refine ⟨henums, hroot, hstructs.length_eq.symm, fun i d hd => ?_⟩
  obtain ⟨d', hd', hgrows⟩ := exists_of_forall₂ hstructs hd
  refine ⟨d', hd', by rw [hgrows.rest]; rfl, hgrows.fixed_eq, hgrows.fixed, fun htable => ⟨fun k f hf => ?_, ?_, ?_⟩⟩
  · obtain ⟨f', hf', hretires⟩ := hgrows.field hf
    exact ⟨f', hf', hretires, hretires.keeps⟩
  · exact fun k f hf => (h'.table_slot hd' (hgrows.fixed_eq.trans htable) hf).2
  · refine StructDef.createOrder_filter (by rw [hgrows.rest]) (hgrows.liveFields_filter ?_ ?_)
    · exact fun k f hf => (h.table_slot hd htable hf).2
    · exact fun k f hf => (h'.table_slot hd' (hgrows.fixed_eq.trans htable) hf).2

theorem StructDoc.Evolves.refl (d : StructDoc) : d.Evolves d :=
  ⟨rfl, fun _ => rfl, d.fields, [], (List.append_nil _).symm, List.forall₂_same.2 fun _ _ => .inl rfl⟩

/-- The sample with its vector of unions deprecated and a second union behind the last field. -/
def evolvedDoc : SchemaDoc :=
  { sampleDoc with
    structs := sampleDoc.structs.modify 2 fun d =>
      { d with
        fields := d.fields.modify 2 (fun f => { f with deprecated := true }) ++
          [{ name := "mount", type := "Gear" }, { name := "level", type := "short" }] } }

/-- Fields are added behind the others and one retires. -/
theorem evolvedDoc_evolves : sampleDoc.Evolves evolvedDoc where
  rest := rfl
  structs := by
    refine .cons (.refl _) (.cons (.refl _) (.cons ?_ .nil))
    refine ⟨rfl, fun hfixed => Bool.noConfusion hfixed, _, _, rfl, ?_⟩
    exact .cons (.inl rfl) (.cons (.inl rfl) (.cons (.inr rfl) (.cons (.inl rfl) (.cons (.inl rfl) .nil))))

/-- The vector of unions goes with its discriminants, and the fields that are left are built in the order that they had. -/
theorem evolvedDoc_createOrder : ∃ s s' d d', Schema.ofDocument sampleDoc = .ok s ∧ Schema.ofDocument evolvedDoc = .ok s' ∧
    s.structs[2]? = some d ∧ s'.structs[2]? = some d' ∧
    d.createOrder.map (·.name) = ["raw", "bag", "bag_type", "gear", "where", "color", "gear_type"] ∧
    d'.createOrder.map (·.name) = ["mount", "raw", "gear", "where", "level", "mount_type", "color", "gear_type"] ∧
    d'.createOrder.filter (fun f => !(d.appended f || d.retired d' f)) = d.createOrder.filter fun f => !d.retired d' f := by
  obtain ⟨s, hs, hlook⟩ := Schema.exists_ofDocument sampleDoc
    (fun s => s.structs[2]?.map fun d => (d.fixed, d.createOrder.map (·.name)))
    (some (false, ["raw", "bag", "bag_type", "gear", "where", "color", "gear_type"])) (by decide +kernel)
  obtain ⟨s', hs', hlook'⟩ := Schema.exists_ofDocument evolvedDoc
    (fun s => s.structs[2]?.map fun d => d.createOrder.map (·.name))
    (some ["mount", "raw", "gear", "where", "level", "mount_type", "color", "gear_type"]) (by decide +kernel)
  obtain ⟨d, hd, hseen⟩ := Option.map_eq_some_iff.1 hlook
  simp only [Prod.mk.injEq] at hseen
  obtain ⟨d', hd', _, _, _, htable⟩ := (Schema.ofDocument_evolves evolvedDoc_evolves hs hs').2.2.2 2 d hd
  rw [hd'] at hlook'
  exact ⟨s, s', d, d', hs, hs', hd, hd', hseen.2, Option.some.inj hlook', (htable hseen.1).2.2⟩

end FlatSchema

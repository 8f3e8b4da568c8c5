import FlatSchema.Proofs.AccessPaths
import FlatSchema.Proofs.FieldNames
import Mathlib.Data.List.Nodup

/-!
# Names of the parameters of a plan

A parameter is named after the fields on its path, joined by underscores. The fields of one struct have different names, but
names may hold underscores, so a field may bear the name of a path through a struct beside it: `a_b` is the name of a field, and
of the field `b` in the struct `a`. Names of parameters are different exactly when this happens in none of the structs inside
(`StructDef.Collides`).
-/

namespace FlatSchema

/-- A struct is another one or stands inside it, at any depth. -/
inductive StructDef.Encloses (s : Schema) : StructDef → StructDef → Prop
  | refl (d : StructDef) : Encloses s d d
  | inside {d inner t : StructDef} {f : FieldDef} (hf : f ∈ d.fields) (hi : f.inner? s = some inner)
    (h : Encloses s inner t) : Encloses s d t

/-- A path through a struct that is a field bears the name of a path from another field, whose own name begins with that of the
struct and an underscore. -/
def StructDef.Collides (s : Schema) (d : StructDef) : Prop :=
  ∃ f ∈ d.fields, ∃ g ∈ d.fields, ∃ inner path rest, f.inner? s = some inner ∧ AccessPath s inner path ∧
    AccessPath s d (g :: rest) ∧ (f.name ++ "_").toList <+: g.name.toList ∧ pathName (f :: path) = pathName (g :: rest)

/-! ## Joined names -/

section Joined

variable {f g : FieldDef} {path rest : List FieldDef}

/-- The name of a path starts with that of its first field. -/
theorem name_prefix_pathName (f : FieldDef) (path : List FieldDef) : f.name.toList <+: (pathName (f :: path)).toList := by
  cases path with
  | nil => simp [pathName_singleton]
  | cons g rest =>
    rw [pathName_cons (List.cons_ne_nil g rest), String.append_assoc, String.toList_append]
    exact List.prefix_append _ _

/-- Of two paths with one name, that whose first field has the shorter name goes on, and that name with an underscore begins the
other one. -/
theorem prefix_of_pathName_eq (heq : pathName (f :: path) = pathName (g :: rest))
    (hlt : f.name.toList.length < g.name.toList.length) : path ≠ [] ∧ (f.name ++ "_").toList <+: g.name.toList := by
  have hg : g.name.toList <+: (pathName (f :: path)).toList := heq ▸ name_prefix_pathName g rest
  have hne : path ≠ [] := by
    intro hnil
    rw [hnil, pathName_singleton] at hg
    have := hg.length_le
    omega
  refine ⟨hne, ?_⟩
  have hf : (f.name ++ "_").toList <+: (pathName (f :: path)).toList := by
    rw [pathName_cons hne]
    generalize f.name ++ "_" = lead
    rw [String.toList_append]
    exact List.prefix_append _ _
  refine List.prefix_of_prefix_length_le hf hg ?_
  rw [String.toList_append, List.length_append]
  exact hlt

/-- Paths of one name whose first fields have names of one length start with the same name. -/
theorem name_eq_of_pathName_eq (heq : pathName (f :: path) = pathName (g :: rest))
    (hlen : f.name.toList.length = g.name.toList.length) : f.name = g.name := by
  have hg : g.name.toList <+: (pathName (f :: path)).toList := heq ▸ name_prefix_pathName g rest
  have hbegins := List.prefix_of_prefix_length_le (name_prefix_pathName f path) hg (Nat.le_of_eq hlen)
  exact String.toList_inj.1 (hbegins.eq_of_length hlen)

end Joined

/-! ## Paths with one name -/

namespace AccessPath

variable {s : Schema} {d : StructDef} {f : FieldDef} {path : List FieldDef}

/-- The first field of a path is a value, and the path ends there, or the path goes on in the struct that it holds. -/
theorem cons_cases (h : AccessPath s d (f :: path)) : f ∈ d.fields ∧
    ((path = [] ∧ f.inner? s = none) ∨ ∃ inner, f.inner? s = some inner ∧ AccessPath s inner path) := by
  cases h with
  | value hf hvalue => exact ⟨hf, .inl ⟨rfl, FieldDef.inner?_of_value hvalue⟩⟩
  | inside hf hi h => exact ⟨hf, .inr ⟨_, hi, h⟩⟩

/-- Paths with one name whose first fields have different names. -/
theorem collides {g : FieldDef} {rest : List FieldDef} (h : AccessPath s d (f :: path)) (h' : AccessPath s d (g :: rest))
    (hname : f.name ≠ g.name) (heq : pathName (f :: path) = pathName (g :: rest)) : d.Collides s := by
  obtain ⟨hf, hpath⟩ := h.cons_cases
  obtain ⟨hg, hrest⟩ := h'.cons_cases
  rcases Nat.lt_trichotomy f.name.toList.length g.name.toList.length with hlt | hlen | hlt
  · obtain ⟨hne, hbegins⟩ := prefix_of_pathName_eq heq hlt
    obtain ⟨hnil, _⟩ | ⟨inner, hi, hpath⟩ := hpath
    · exact absurd hnil hne
    · exact ⟨f, hf, g, hg, inner, path, rest, hi, hpath, h', hbegins, heq⟩
  · exact absurd (name_eq_of_pathName_eq heq hlen) hname
  · obtain ⟨hne, hbegins⟩ := prefix_of_pathName_eq heq.symm hlt
    obtain ⟨hnil, _⟩ | ⟨inner, hi, hrest⟩ := hrest
    · exact absurd hnil hne
    · exact ⟨g, hg, f, hf, inner, rest, path, hi, hrest, h, hbegins, heq.symm⟩

end AccessPath

/-- Where a struct inside collides, different paths have one name. -/
theorem StructDef.Encloses.repeats {s : Schema} {d t : StructDef} (h : d.Encloses s t) (ht : t.Collides s) :
    ∃ path path', AccessPath s d path ∧ AccessPath s d path' ∧ path ≠ path' ∧ pathName path = pathName path' := by
  induction h with
  | refl d =>
    obtain ⟨f, hf, g, hg, inner, path, rest, hi, hpath, hrest, hbegins, heq⟩ := ht
    refine ⟨f :: path, g :: rest, .inside hf hi hpath, hrest, fun hsame => ?_, heq⟩
    obtain ⟨rfl, _⟩ := List.cons.inj hsame
    have hlen := hbegins.length_le
    rw [String.toList_append, List.length_append] at hlen
    exact absurd hlen (Nat.not_succ_le_self _)
  | @inside d inner t f hf hi _ ih =>
    obtain ⟨path, path', hpath, hpath', hne, heq⟩ := ih ht
    refine ⟨f :: path, f :: path', .inside hf hi hpath, .inside hf hi hpath', fun hsame => hne (List.cons.inj hsame).2, ?_⟩
    rw [pathName_cons hpath.ne_nil, pathName_cons hpath'.ne_nil, heq]

namespace Loaded

variable {doc : SchemaDoc} {names : NameTable} {declared : List StructDef} {s : Schema} {d : StructDef}

/-- The fields of a fixed struct have different names: none is a discriminant. -/
theorem fixed_names (h : Loaded doc names declared s) (hd : d ∈ s.structs) (hfixed : d.fixed = true) :
    d.fields.Pairwise fun f g => f.name ≠ g.name := by
  refine (h.leavesName hd).imp_of_mem fun {f g} _ hg hleaves => hleaves (Bool.eq_false_iff.2 fun htag => ?_)
  have hbase := TypeDesc.isDiscriminant_iff.1 htag
  rcases h.element_flat hd hfixed hg with ⟨_, ⟨hscalar, hplain⟩ | ⟨hs, _⟩⟩ | ⟨ha, _⟩
  · rcases hbase with hu | ⟨hv, _⟩
    · exact hplain hu
    · rw [TypeDesc.isScalar, hv] at hscalar
      cases hscalar
  · rw [TypeDesc.isStruct_iff.1 hs] at hbase
    simp at hbase
  · rw [TypeDesc.isArray_iff.1 ha] at hbase
    simp at hbase

/-- The fields of a struct are told by their names. -/
theorem field_of_name (h : Loaded doc names declared s) (hd : d ∈ s.structs) (hfixed : d.fixed = true) {f g : FieldDef}
    (hf : f ∈ d.fields) (hg : g ∈ d.fields) (hname : f.name = g.name) : f = g :=
  List.inj_on_of_nodup_map (List.pairwise_map.2 (h.fixed_names hd hfixed)) hf hg hname

/-- Different paths with one name part in a struct that collides. The induction follows the first path as long as the other one
goes through the same fields. -/
theorem collides_of_pathName_eq (h : Loaded doc names declared s) {path : List FieldDef} (hpath : AccessPath s d path) :
    d ∈ s.structs → d.fixed = true → ∀ path', AccessPath s d path' → path ≠ path' → pathName path = pathName path' →
      ∃ t, d.Encloses s t ∧ t.Collides s := by
  induction hpath with
  | @value d f hf hvalue =>
    intro hd hfixed path' hpath' hne heq
    obtain ⟨g, rest, rfl⟩ := List.exists_cons_of_ne_nil hpath'.ne_nil
    refine ⟨d, .refl d, AccessPath.collides (.value hf hvalue) hpath' (fun hname => ?_) heq⟩
    obtain ⟨hg, hrest⟩ := hpath'.cons_cases
    obtain rfl := h.field_of_name hd hfixed hf hg hname
    rw [FieldDef.inner?_of_value hvalue] at hrest
    obtain ⟨rfl, _⟩ | ⟨inner, hi, _⟩ := hrest
    · exact hne rfl
    · cases hi
  | @inside d inner f path hf hi hpath ih =>
    intro hd hfixed path' hpath' hne heq
    obtain ⟨g, rest, rfl⟩ := List.exists_cons_of_ne_nil hpath'.ne_nil
    -- paths through the same field go on inside it; paths through different fields collide here
    by_cases hname : f.name = g.name
    · obtain ⟨hg, hrest⟩ := hpath'.cons_cases
      obtain rfl := h.field_of_name hd hfixed hf hg hname
      rw [hi] at hrest
      obtain ⟨_, hnone⟩ | ⟨inner', hi', hrest⟩ := hrest
      · cases hnone
      · cases hi'
        rw [pathName_cons hpath.ne_nil, pathName_cons hrest.ne_nil, String.append_right_inj] at heq
        obtain ⟨hinner, hinnerFixed, _⟩ := h.inner_fixed hd hfixed hf hi
        obtain ⟨t, ht, hcollides⟩ := ih hinner hinnerFixed rest hrest (fun hsame => hne (congrArg (f :: ·) hsame)) heq
        exact ⟨t, .inside hf hi ht, hcollides⟩
    · exact ⟨d, .refl d, AccessPath.collides (.inside hf hi hpath) hpath' hname heq⟩

/-- The walk finds a path once. -/
theorem pathsOf_nodup (h : Loaded doc names declared s) (hd : d ∈ s.structs) (hfixed : d.fixed = true) :
    (StructPlan.pathsOf s (s.structs.length + 1) d).Nodup := by
  refine h.flatten_induction (motive := fun depth d => (StructPlan.pathsOf s depth d).Nodup)
    (fun depth d hd hfixed ih => ?_) hd hfixed
  rw [StructPlan.pathsOf_succ]
  refine List.pairwise_flatMap.2 ⟨fun f hf => ?_, ?_⟩
  · unfold StructPlan.fieldPaths
    cases hi : f.inner? s with
    | none => exact List.nodup_singleton _
    | some inner => exact (ih f hf inner hi).map fun _ _ hsame => (List.cons.inj hsame).2
  · refine (h.fixed_names hd hfixed).imp fun {f g} hname path hpath path' hpath' hsame => ?_
    have hfirst := StructPlan.head?_of_mem_fieldPaths hpath
    rw [hsame, StructPlan.head?_of_mem_fieldPaths hpath', Option.some.injEq] at hfirst
    exact hname (congrArg FieldDef.name hfirst.symm)

end Loaded

/-! ## When names are different -/

/-- A parameter is named after the fields on its path. Different parameters have different names exactly when no struct inside
has a field that bears the name of a path through a struct beside it. -/
theorem StructPlan.of_names_nodup_iff {doc : SchemaDoc} {s : Schema} (h : Schema.ofDocument doc = .ok s) {d : StructDef}
    (hd : d ∈ s.structs) (hfixed : d.fixed = true) :
    (∀ p ∈ (StructPlan.of s d).params, p.name = pathName p.path) ∧
    (((StructPlan.of s d).params.map (·.name)).Nodup ↔ ∀ t, d.Encloses s t → ¬t.Collides s) := by
  obtain ⟨names, declared, h⟩ := Schema.ofDocument_loaded h
  have hname : ∀ path, (StructParam.along "" [] none path).name = pathName path := fun path => String.empty_append
  rw [h.params_eq hd hfixed, List.map_map, List.nodup_map_iff_inj_on (h.pathsOf_nodup hd hfixed)]
  refine ⟨fun p hp => ?_, fun hinj t ht hcollides => ?_, fun hno path hpath path' hpath' heq => ?_⟩
  · obtain ⟨path, _, rfl⟩ := List.mem_map.1 hp
    exact hname path
  · obtain ⟨path, path', hpath, hpath', hne, heq⟩ := ht.repeats hcollides
    refine hne (hinj path ((h.mem_pathsOf hd hfixed path).2 hpath) path' ((h.mem_pathsOf hd hfixed path').2 hpath') ?_)
    rw [Function.comp_apply, Function.comp_apply, hname, hname, heq]
  · rw [Function.comp_apply, Function.comp_apply, hname, hname] at heq
    refine Decidable.byContradiction fun hne => ?_
    obtain ⟨t, ht, hcollides⟩ := h.collides_of_pathName_eq ((h.mem_pathsOf hd hfixed path).1 hpath) hd hfixed path'
      ((h.mem_pathsOf hd hfixed path').1 hpath') hne heq
    exact hno t ht hcollides

/-- The fields of a struct and of the elements of an array beside it have different names behind those around them. -/
theorem sampleDoc_names_nodup : ∃ s d, Schema.ofDocument sampleDoc = .ok s ∧ d ∈ s.structs ∧ d.fixed = true ∧
    (StructPlan.of s d).params.map (·.name) = ["tag", "pos_a", "pos_b", "grid_a", "grid_b", "xs"] ∧
    ∀ t, d.Encloses s t → ¬t.Collides s := by
  obtain ⟨s, hs, hlook⟩ := Schema.exists_ofDocument sampleDoc
    (fun s => s.structs[0]?.map fun d => (d.fixed, (StructPlan.of s d).params.map (·.name)))
    (some (true, ["tag", "pos_a", "pos_b", "grid_a", "grid_b", "xs"])) (by decide +kernel)
  obtain ⟨d, hd, hseen⟩ := Option.map_eq_some_iff.1 hlook
  simp only [Prod.mk.injEq] at hseen
  have hmem := List.mem_of_getElem? hd
  refine ⟨s, d, hs, hmem, hseen.1, hseen.2, (StructPlan.of_names_nodup_iff hs hmem hseen.1).2.1 ?_⟩
  rw [hseen.2]
  decide

/-- A struct with a field that bears the name of a field inside the struct before it. -/
def collidingDoc : SchemaDoc where
  structs := [
    { name := "Inner", fixed := true, fields := [{ name := "b", type := "int" }] },
    { name := "Outer", fixed := true, fields := [{ name := "a", type := "Inner" }, { name := "a_b", type := "int" }] }]

/-- Two parameters get one name: a field whose name has an underscore, and a field inside another. -/
theorem collidingDoc_repeats : ∃ s d, Schema.ofDocument collidingDoc = .ok s ∧ d ∈ s.structs ∧ d.fixed = true ∧
    (StructPlan.of s d).params.map (·.name) = ["a_b", "a_b"] ∧ ¬((StructPlan.of s d).params.map (·.name)).Nodup := by
  obtain ⟨s, hs, hlook⟩ := Schema.exists_ofDocument collidingDoc
    (fun s => s.structs[1]?.map fun d => (d.fixed, (StructPlan.of s d).params.map (·.name)))
    (some (true, ["a_b", "a_b"])) (by decide +kernel)
  obtain ⟨d, hd, hseen⟩ := Option.map_eq_some_iff.1 hlook
  simp only [Prod.mk.injEq] at hseen
  refine ⟨s, d, hs, List.mem_of_getElem? hd, hseen.1, hseen.2, ?_⟩
  rw [hseen.2]
  decide

end FlatSchema

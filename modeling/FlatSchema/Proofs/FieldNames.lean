import FlatSchema.Proofs.WellTyped

/-!
# The names of fields

A declared field may not bear the name of a field in front of it, hidden or declared. A hidden field is put in front of its
union without being asked for its name, so it may repeat the name of a declared field. Since the name of a hidden field is made
of that of its union, this is the only way in which two fields get one name: the names of a struct or table are different
exactly when no field stands before a union and bears the name of its discriminant.
-/

namespace FlatSchema

/-! ## Declared and hidden fields -/

/-- Whether a discriminant goes with a field. -/
def FieldDef.isTagged (f : FieldDef) : Bool := f.type.isUnion || f.type.isUnionVector

/-- The name of the discriminant that goes with a field. -/
def FieldDef.tagName (f : FieldDef) : String := f.name ++ FieldDef.discriminantSuffix

/-- The fields that are no discriminants. -/
def StructDef.declaredFields (d : StructDef) : List FieldDef := d.fields.filter (fun f => !f.isDiscriminant)

/-- The discriminants. -/
def StructDef.hiddenFields (d : StructDef) : List FieldDef := d.fields.filter FieldDef.isDiscriminant

/-- The second field is no union whose discriminant bears the name of the first. -/
def FieldDef.LeavesTagName (f g : FieldDef) : Prop := g.isTagged = true → f.name ≠ g.tagName

instance (f g : FieldDef) : Decidable (f.LeavesTagName g) := inferInstanceAs (Decidable (_ → _))

theorem FieldDef.tagName_inj {f g : FieldDef} : f.tagName = g.tagName ↔ f.name = g.name := by
  unfold tagName
  exact String.append_left_inj _

theorem FieldDef.Tags.isDiscriminant {tag f : FieldDef} (h : tag.Tags f) : tag.isDiscriminant = true ∧ f.isTagged = true := by
  obtain ⟨_, i, ⟨hf, htag⟩ | ⟨hf, htag⟩⟩ := h
  · rw [FieldDef.isDiscriminant, FieldDef.isTagged, hf, htag]
    exact ⟨rfl, rfl⟩
  · rw [FieldDef.isDiscriminant, FieldDef.isTagged, hf, htag]
    exact ⟨rfl, rfl⟩

theorem FieldDef.Tags.name_eq {tag f : FieldDef} (h : tag.Tags f) : tag.name = f.tagName := h.1

namespace Declared

variable {enums : List EnumDef} {structs : Nat} {fs : List FieldDef}

/-- The names of the discriminants are those made of the names of the unions, in the same order. -/
theorem hidden_names (h : Declared enums structs fs) :
    (fs.filter FieldDef.isDiscriminant).map (·.name) =
      ((fs.filter (fun f => !f.isDiscriminant)).filter FieldDef.isTagged).map FieldDef.tagName := by
  induction h with
  | nil => rfl
  | @field f rest ht hu _ _ ih =>
    have hf : f.isDiscriminant = false := Bool.eq_false_iff.2 ht.not_discriminant
    have hu : f.isTagged = false := hu
    simp [hf, hu, ih]
  | @tagged tag f rest htag ht _ _ _ ih =>
    have hf : f.isDiscriminant = false := Bool.eq_false_iff.2 ht.not_discriminant
    obtain ⟨hd, hu⟩ := htag.isDiscriminant
    simp [hf, hd, hu, ih, htag.name_eq]

/-- A name that no declared field has is the name of a field exactly when it is that of a union's discriminant. -/
theorem not_mem_names_iff (h : Declared enums structs fs) {name : String}
    (hnew : ∀ g ∈ fs, g.isDiscriminant = false → name ≠ g.name) :
    name ∉ fs.map (·.name) ↔
      ∀ g ∈ fs.filter (fun f => !f.isDiscriminant), g.isTagged = true → name ≠ g.tagName := by
  have hhidden : name ∈ fs.map (·.name) ↔ name ∈ (fs.filter FieldDef.isDiscriminant).map (·.name) := by
    simp only [List.mem_map, List.mem_filter]
    constructor
    · rintro ⟨g, hg, rfl⟩
      cases hd : g.isDiscriminant with
      | true => exact ⟨g, ⟨hg, hd⟩, rfl⟩
      | false => exact absurd rfl (hnew g hg hd)
    · rintro ⟨g, ⟨hg, _⟩, rfl⟩
      exact ⟨g, hg, rfl⟩
  rw [hhidden, h.hidden_names]
  simp only [List.mem_map, List.mem_filter (p := FieldDef.isTagged), not_exists, not_and, and_imp]
  exact ⟨fun hno g hg hu hname => hno g hg hu hname.symm, fun hno g hg hu hname => hno g hg hu hname.symm⟩

end Declared

/-! ## Which names are refused -/

/-- The second field, if it is declared, has another name than the first. -/
def FieldDef.LeavesName (f g : FieldDef) : Prop := g.isDiscriminant = false → f.name ≠ g.name

namespace Resolve

/-- At most one hidden field goes with a field, and it is a discriminant. -/
theorem hiddenFields_discriminant {names : NameTable} {enums : List EnumDef} {structs : Nat}
    (hnames : names.InRange enums.length structs) (henums : ∀ e ∈ enums, e.Resolved structs) {scope : Namespace}
    {context : String} {doc : FieldDoc} {t : TypeDesc} (ht : TypeExpr.typeOf names enums scope context doc.type = .ok t)
    {hidden : List FieldDef} (h : hiddenFields doc t context = .ok hidden) :
    (∀ g ∈ hidden, g.isDiscriminant = true) ∧ hidden.Pairwise FieldDef.LeavesName := by
  rcases hiddenFields_eq_ok h with ⟨_, rfl⟩ | ⟨i, hu, hi, rfl⟩
  · exact ⟨fun g hg => absurd hg List.not_mem_nil, .nil⟩
  · refine ⟨fun g hg => ?_, List.pairwise_singleton ..⟩
    obtain ⟨j, hj⟩ := (TypeExpr.typeOf_expressed hnames henums ht).eq_union hu
    rw [List.mem_singleton.1 hg]
    exact (hiddenField_tags (f := { name := doc.name, type := t }) rfl hj hi).isDiscriminant.1

/-- A declared field bears no name that is taken, and no name of a field in front of it. -/
theorem fields_leavesName {names : NameTable} {enums : List EnumDef} {structs : Nat}
    (hnames : names.InRange enums.length structs) (henums : ∀ e ∈ enums, e.Resolved structs) {scope : Namespace}
    {context : String} :
    ∀ {taken : List String} {docs : List FieldDoc} {fs : List FieldDef},
      fields names enums scope context taken docs = .ok fs →
        fs.Pairwise FieldDef.LeavesName ∧ ∀ g ∈ fs, g.isDiscriminant = false → g.name ∉ taken
  | _, [], fs, h => by
    cases h
    exact ⟨.nil, fun g hg => absurd hg List.not_mem_nil⟩
  | taken, doc :: rest, fs, h => by
    obtain ⟨t, hidden, f, later, ht, hhidden, hf, hnew, hlater, rfl⟩ := fields_cons_eq_ok h
    obtain ⟨hpairs, htaken⟩ := fields_leavesName hnames henums hlater
    obtain ⟨hdisc, hlone⟩ := hiddenFields_discriminant hnames henums ht hhidden
    refine ⟨?_, ?_⟩
    · refine List.pairwise_append.2 ⟨hlone, List.pairwise_cons.2 ⟨?_, hpairs⟩, ?_⟩
      · intro g hg hd hname
        exact htaken g hg hd (hname ▸ List.mem_cons_self)
      · intro a ha b hb hd hname
        have hearlier : a.name ∈ hidden.map (·.name) ++ taken := List.mem_append_left _ (List.mem_map_of_mem ha)
        rcases List.mem_cons.1 hb with rfl | hb
        · exact hnew (hname ▸ hearlier)
        · exact htaken b hb hd (hname ▸ List.mem_cons_of_mem _ hearlier)
    · intro g hg hd hmem
      rcases List.mem_append.1 hg with hg | hg
      · exact absurd (hdisc g hg) (by rw [hd]; exact Bool.false_ne_true)
      · rcases List.mem_cons.1 hg with rfl | hg
        · exact hnew (List.mem_append_right _ hmem)
        · exact htaken g hg hd (List.mem_cons_of_mem _ (List.mem_append_right _ hmem))

end Resolve

/-- What a field leaves does not depend on the layout. -/
theorem FieldDef.leavesName_unplaced {f g : FieldDef} : f.unplaced.LeavesName g.unplaced ↔ f.LeavesName g := Iff.rfl

/-- The fields of a struct or table of the schema bear no names of declared fields behind them. -/
theorem Loaded.leavesName {doc : SchemaDoc} {names : NameTable} {declared : List StructDef} {s : Schema}
    (h : Loaded doc names declared s) {d : StructDef} (hd : d ∈ s.structs) : d.fields.Pairwise FieldDef.LeavesName := by
  obtain ⟨i, hi⟩ := List.mem_iff_getElem?.1 hd
  obtain ⟨d', hd', hu⟩ := h.placed.unplaced hi
  obtain ⟨sd, _, hsd⟩ := mapM_mem h.structs d' (List.mem_of_getElem? hd')
  have hpairs := (Resolve.fields_leavesName h.names_inRange (fun e he => h.enum_resolved he)
    (Resolve.struct_eq_ok hsd).1).1
  have hfields : d.fields.map FieldDef.unplaced = d'.fields.map FieldDef.unplaced := congrArg StructDef.fields hu
  have hmapped : (d.fields.map FieldDef.unplaced).Pairwise FieldDef.LeavesName := by
    rw [hfields]
    exact List.pairwise_map.2 (hpairs.imp FieldDef.leavesName_unplaced.2)
  exact (List.pairwise_map.1 hmapped).imp FieldDef.leavesName_unplaced.1

/-! ## When names are different -/

/-- The names of fields, none of which bears the name of a declared one behind it, are different exactly when none bears the
name of a discriminant behind it that is not its own. -/
theorem Declared.nodup_iff {enums : List EnumDef} {structs : Nat} {fs : List FieldDef} (h : Declared enums structs fs)
    (hpairs : fs.Pairwise FieldDef.LeavesName) :
    (fs.map (·.name)).Nodup ↔ (fs.filter (fun f => !f.isDiscriminant)).Pairwise FieldDef.LeavesTagName := by
  induction h with
  | nil => simp
  | @field f rest ht _ _ hrest ih =>
    obtain ⟨hf, hpairs⟩ := List.pairwise_cons.1 hpairs
    have hdecl : f.isDiscriminant = false := Bool.eq_false_iff.2 ht.not_discriminant
    rw [List.map_cons, List.nodup_cons, List.filter_cons_of_pos (by rw [hdecl]; rfl), List.pairwise_cons,
      hrest.not_mem_names_iff hf, ih hpairs]
    exact Iff.rfl
  | @tagged tag f rest htag ht _ _ hrest ih =>
    obtain ⟨htagRest, hpairs⟩ := List.pairwise_cons.1 hpairs
    obtain ⟨hf, hpairs⟩ := List.pairwise_cons.1 hpairs
    have hdecl : f.isDiscriminant = false := Bool.eq_false_iff.2 ht.not_discriminant
    -- another discriminant with this name would belong to another union with the name of this one
    have htagNew : tag.name ∉ rest.map (·.name) := by
      refine (hrest.not_mem_names_iff fun g hg => htagRest g (List.mem_cons_of_mem _ hg)).2 ?_
      intro g hg _ hname
      obtain ⟨hg, hd⟩ := List.mem_filter.1 hg
      rw [htag.name_eq, FieldDef.tagName_inj] at hname
      exact hf g hg (by simpa using hd) hname
    have htagOther : tag.name ≠ f.name := htagRest f List.mem_cons_self hdecl
    rw [List.map_cons, List.nodup_cons, List.map_cons, List.mem_cons, List.nodup_cons, List.filter_cons_of_neg
      (by rw [htag.isDiscriminant.1]; exact Bool.false_ne_true), List.filter_cons_of_pos (by rw [hdecl]; rfl),
      List.pairwise_cons, hrest.not_mem_names_iff hf, ih hpairs]
    simp only [htagOther, htagNew, or_self, not_false_eq_true, true_and]
    exact Iff.rfl

/-- The declared fields of a struct or table have different names, and so have its discriminants. All of its fields have
different names exactly when no field stands before a union and bears the name of the union's discriminant. -/
theorem Schema.ofDocument_fieldNames {doc : SchemaDoc} {s : Schema} (h : Schema.ofDocument doc = .ok s) :
    ∀ d ∈ s.structs, (d.declaredFields.map (·.name)).Nodup ∧ (d.hiddenFields.map (·.name)).Nodup ∧
      ((d.fields.map (·.name)).Nodup ↔ d.declaredFields.Pairwise FieldDef.LeavesTagName) := by
  obtain ⟨names, declared, h⟩ := Schema.ofDocument_loaded h
  intro d hd
  have hdecl := h.declared_fields hd
  have hpairs := h.leavesName hd
  have hnodup : d.declaredFields.Pairwise fun f g => f.name ≠ g.name := by
    refine (hpairs.sublist List.filter_sublist).imp_of_mem ?_
    intro f g _ hg hleaves
    exact hleaves (by simpa using (List.mem_filter.1 hg).2)
  refine ⟨List.pairwise_map.2 hnodup, ?_, hdecl.nodup_iff hpairs⟩
  have htags : (d.declaredFields.filter FieldDef.isTagged).Pairwise fun f g => f.tagName ≠ g.tagName :=
    (hnodup.sublist List.filter_sublist).imp fun hne htag => hne (FieldDef.tagName_inj.1 htag)
  rw [StructDef.hiddenFields, hdecl.hidden_names]
  exact List.pairwise_map.2 htags

theorem sampleDoc_fieldNames : ∃ s, Schema.ofDocument sampleDoc = .ok s ∧
    s.structs.map (fun d => d.hiddenFields.map (·.name)) = [[], [], ["gear_type", "bag_type"]] ∧
    ∀ d ∈ s.structs, (d.fields.map (·.name)).Nodup := by
  obtain ⟨s, hs, hseen⟩ := Schema.exists_ofDocument sampleDoc
    (fun s => (s.structs.map (fun d => d.hiddenFields.map (·.name)),
      decide (∀ d ∈ s.structs, d.declaredFields.Pairwise FieldDef.LeavesTagName)))
    ([[], [], ["gear_type", "bag_type"]], true) (by decide +kernel)
  obtain ⟨hhidden, hleaves⟩ := Prod.mk.inj hseen
  refine ⟨s, hs, hhidden, fun d hd => ?_⟩
  exact ((Schema.ofDocument_fieldNames hs d hd).2.2).2 (of_decide_eq_true hleaves d hd)

/-- A table with a field that bears the name of the discriminant of the union behind it. -/
def forestallingDoc : SchemaDoc where
  enums := [{ name := "Gear", isUnion := true, values := [{ name := "Hero" }] }]
  structs := [{ name := "Hero", fields := [{ name := "gear_type", type := "int" }, { name := "gear", type := "Gear" }] }]

/-- The table is accepted and has two fields of one name. -/
theorem forestallingDoc_repeats : ∃ s, Schema.ofDocument forestallingDoc = .ok s ∧
    ∃ d ∈ s.structs, d.fields.map (·.name) = ["gear_type", "gear_type", "gear"] ∧ ¬(d.fields.map (·.name)).Nodup := by
  obtain ⟨s, hs, hseen⟩ := Schema.exists_ofDocument forestallingDoc (fun s => s.structs.map fun d => d.fields.map (·.name))
    [["gear_type", "gear_type", "gear"]] (by decide +kernel)
  have hmem : ["gear_type", "gear_type", "gear"] ∈ s.structs.map fun d => d.fields.map (·.name) :=
    hseen ▸ List.mem_singleton_self _
  obtain ⟨d, hd, hnames⟩ := List.mem_map.1 hmem
  exact ⟨s, hs, d, hd, hnames, hnames ▸ by decide⟩

end FlatSchema

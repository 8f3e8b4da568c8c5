import FlatSchema.Proofs.MemberDefaults

/-!
# Definitions by their qualified names

All names of a schema are identifiers, so a namespace is read back from what is written of it (`Namespace.Named.ofDotted_dotted`), and
a qualified name tells the namespace and the name that it is made of. No qualified name is declared twice, for whatever kinds of
definitions, so it also tells the definition (`Loaded.eq_of_qualify_eq`): looked up among the definitions of its kind it leads to the
one that it belongs to, and among those of the other kind to none.
-/

namespace FlatSchema

/-- A namespace of identifiers is read from what is written of it. -/
theorem Namespace.Named.ofDotted_dotted {n : Namespace} (hn : n.Named) : Namespace.ofDotted n.dotted = n := by
  have hword : ∀ p ∈ n.components, Text.IsWord p.toList := fun p hp => isWord_of_isIdentifier (hn p hp)
  by_cases hroot : n.components = []
  · have heq : n = Namespace.root := Namespace.eq_of_isRoot (isRoot_iff.2 hroot) rfl
    rw [heq]
    decide
  · have hsplit : n.dotted.toList.splitOn '.' = n.components.map String.toList :=
      splitOn_intercalate hroot fun p hp => not_mem_of_isIdentifier (hn p hp) (by decide)
    have htrim : (n.components.map String.toList).map Text.trim = n.components.map String.toList := by
      rw [List.map_map]
      exact List.map_congr_left fun p hp => trim_of_not_blank (hword p hp).solid
    have hkept : (n.components.map String.toList).filter (fun c => !c.isEmpty) = n.components.map String.toList := by
      refine List.filter_eq_self.2 fun w hw => ?_
      obtain ⟨p, hp, rfl⟩ := List.mem_map.1 hw
      simpa using (hword p hp).nonempty
    have hback : (n.components.map String.toList).map String.ofList = n.components := by
      simp [Function.comp_def, String.ofList_toList]
    rw [Namespace.ofDotted, hsplit, htrim, hkept, hback]

/-- An element is found by its key if no element at another place has this key. -/
theorem find?_eq_some_of_place {α : Type} {key : α → String} {xs : List α} {i : Nat} {x : α} (hx : xs[i]? = some x)
    (hone : ∀ j y, xs[j]? = some y → key y = key x → j = i) : xs.find? (fun y => key y == key x) = some x := by
  cases hfind : xs.find? (fun y => key y == key x) with
  | none => exact absurd (beq_self_eq_true (key x)) (List.find?_eq_none.1 hfind x (List.mem_of_getElem? hx))
  | some y =>
    obtain ⟨j, hj⟩ := List.mem_iff_getElem?.1 (List.mem_of_find?_eq_some hfind)
    have hkey := List.find?_some hfind
    rw [hone j y hj (eq_of_beq hkey), hx] at hj
    exact hj.symm

/-- Nothing is found under a name that nothing has. -/
theorem find?_eq_none_of_ne {α : Type} {key : α → String} {xs : List α} {name : String}
    (h : ∀ (j : Nat) y, xs[j]? = some y → key y ≠ name) : xs.find? (fun y => key y == name) = none := by
  refine List.find?_eq_none.2 fun y hy hkey => ?_
  obtain ⟨j, hj⟩ := List.mem_iff_getElem?.1 hy
  exact h j y hj (eq_of_beq hkey)

namespace Loaded

variable {doc : SchemaDoc} {names : NameTable} {declared : List StructDef} {s : Schema}

/-- Definitions with one qualified name have one namespace and one name, and are the same. -/
theorem eq_of_qualify_eq (h : Loaded doc names declared s) {ref ref' : Ref} {scope scope' : Namespace} {name name' : String}
    (href : s.nameAt? ref = some (scope, name)) (href' : s.nameAt? ref' = some (scope', name'))
    (heq : scope.qualify name "." = scope'.qualify name' ".") : scope = scope' ∧ name = name' ∧ ref = ref' := by
  obtain ⟨hname, hscope⟩ := Schema.nameAt?_isIdentifier h.valid href
  obtain ⟨hname', hscope'⟩ := Schema.nameAt?_isIdentifier h.valid href'
  obtain ⟨rfl, rfl⟩ := Namespace.qualify_inj hscope hscope' hname hname' heq
  exact ⟨rfl, rfl, h.nameAt?_inj href href'⟩

/-- A reference to a struct leads to its name and namespace. -/
theorem nameAt?_struct {i : Nat} {d : StructDef} (hd : s.structs[i]? = some d) :
    s.nameAt? (.struct i) = some (d.scope, d.name) := by
  rw [Schema.nameAt?, hd]
  rfl

/-- A reference to an enum leads to its name and namespace. -/
theorem nameAt?_enum {i : Nat} {e : EnumDef} (he : s.enums[i]? = some e) : s.nameAt? (.enum i) = some (e.scope, e.name) := by
  rw [Schema.nameAt?, he]
  rfl

/-- An enum or union and a struct or table have different qualified names. -/
theorem qualifiedName_ne (h : Loaded doc names declared s) {i j : Nat} {e : EnumDef} {d : StructDef} (he : s.enums[i]? = some e)
    (hd : s.structs[j]? = some d) : e.qualifiedName ≠ d.qualifiedName := by
  intro heq
  obtain ⟨_, _, href⟩ := h.eq_of_qualify_eq (nameAt?_enum he) (nameAt?_struct hd) heq
  cases href

/-- A struct is found by its qualified name. -/
theorem findStruct?_qualifiedName (h : Loaded doc names declared s) {i : Nat} {d : StructDef} (hd : s.structs[i]? = some d) :
    s.findStruct? d.qualifiedName = some d := by
  refine find?_eq_some_of_place hd fun j d' hd' heq => ?_
  obtain ⟨_, _, href⟩ := h.eq_of_qualify_eq (nameAt?_struct hd') (nameAt?_struct hd) heq
  exact Ref.struct.inj href

/-- An enum is found by its qualified name. -/
theorem findEnum?_qualifiedName (h : Loaded doc names declared s) {i : Nat} {e : EnumDef} (he : s.enums[i]? = some e) :
    s.findEnum? e.qualifiedName = some e := by
  refine find?_eq_some_of_place he fun j e' he' heq => ?_
  obtain ⟨_, _, href⟩ := h.eq_of_qualify_eq (nameAt?_enum he') (nameAt?_enum he) heq
  exact Ref.enum.inj href

end Loaded

/-- In the schema of a document, over all kinds of definitions together, a qualified name belongs to one namespace and name, and to one
definition. The namespaces are read back from what is written of them. A struct or table is found by its qualified name, under which
there is no enum or union, and the other way round. -/
theorem Schema.ofDocument_qualifiedNames {doc : SchemaDoc} {s : Schema} (h : Schema.ofDocument doc = .ok s) :
    (∀ ref ref' scope scope' name name', s.nameAt? ref = some (scope, name) → s.nameAt? ref' = some (scope', name') →
      scope.qualify name "." = scope'.qualify name' "." →
        (scope.components, name) = (scope'.components, name') ∧ ref = ref') ∧
    (∀ ref scope name, s.nameAt? ref = some (scope, name) → Namespace.ofDotted (scope.join ".") = scope) ∧
    (∀ (i : Nat) d, s.structs[i]? = some d → s.findStruct? d.qualifiedName = some d ∧ s.findEnum? d.qualifiedName = none) ∧
    ∀ (i : Nat) e, s.enums[i]? = some e → s.findEnum? e.qualifiedName = some e ∧ s.findStruct? e.qualifiedName = none := by
  obtain ⟨names, declared, hloaded⟩ := Schema.ofDocument_loaded h
  refine ⟨fun ref ref' scope scope' name name' href href' heq => ?_, fun ref scope name href => ?_, fun i d hd => ⟨?_, ?_⟩,
    fun i e he => ⟨?_, ?_⟩⟩
  · obtain ⟨rfl, rfl, hsame⟩ := hloaded.eq_of_qualify_eq href href' heq
    exact ⟨rfl, hsame⟩
  · exact (Schema.nameAt?_isIdentifier hloaded.valid href).2.ofDotted_dotted
  · exact hloaded.findStruct?_qualifiedName hd
  · exact find?_eq_none_of_ne fun j e he => hloaded.qualifiedName_ne he hd
  · exact hloaded.findEnum?_qualifiedName he
  · exact find?_eq_none_of_ne fun j d hd => (hloaded.qualifiedName_ne he hd).symm

/-- An enum, a table and a struct of one name in different namespaces, one of which has the qualified name of the enum. -/
def namesakesDoc : SchemaDoc where
  enums := [{ name := "B", scope := " A ..", values := [{ name := "x" }] }]
  structs := [
    { name := "B", fields := [{ name := "b", type := "A.B" }] },
    { name := "B", scope := "A.B", fixed := true, fields := [{ name := "b", type := "int" }] }]

/-- Definitions of one name in different namespaces, one of which is named like a definition. -/
theorem namesakesDoc_qualifiedNames : ∃ s, Schema.ofDocument namesakesDoc = .ok s ∧
    s.nameAt? (.enum 0) = some (⟨["A"]⟩, "B") ∧ Namespace.ofDotted ((⟨["A"]⟩ : Namespace).join ".") = ⟨["A"]⟩ ∧
    ∃ d, s.structs[1]? = some d ∧ d.qualifiedName = "A.B.B" ∧ s.findStruct? "A.B.B" = some d ∧ s.findEnum? "A.B.B" = none := by
  obtain ⟨s, hs, hseen⟩ := Schema.exists_ofDocument namesakesDoc
    (fun s => (s.nameAt? (.enum 0), s.structs[1]?.map (·.qualifiedName))) (some (⟨["A"]⟩, "B"), some "A.B.B") (by decide +kernel)
  obtain ⟨_, hdotted, hstructs, _⟩ := Schema.ofDocument_qualifiedNames hs
  obtain ⟨henum, hstruct⟩ := Prod.mk.inj hseen
  obtain ⟨d, hd, hname⟩ := Option.map_eq_some_iff.1 hstruct
  exact ⟨s, hs, henum, hdotted (.enum 0) _ _ henum, d, hd, hname, hname ▸ hstructs 1 d hd⟩

end FlatSchema

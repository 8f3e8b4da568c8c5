import FlatSchema.Proofs.CodeShape
import FlatSchema.Proofs.HiddenFields
import FlatSchema.Proofs.QualifiedNames

/-!
# Enums declared by what they are

A loaded enum can be declared by its members as they are: each with its value, or in an enum of bit flags with the position of its
bit, as the schema language prints it. This declaration resolves to the enum itself, so that it may stand in the document in the
place of the one that was given (`Schema.ofDocument_redeclared`).
-/

namespace FlatSchema

/-- No base type takes more than eight bytes. -/
theorem BaseType.size_le (b : BaseType) : b.size ≤ 8 := by
  cases b <;> decide

/-! ## Positions of bits -/

/-- The lowest bit of a power of two is its only one, also where this is the bit of the sign. -/
theorem Fbs.lowestBit_pow {n : Nat} (hn : n < 64) : lowestBit (signed64 (Nat.pow 2 n)) = n := by
  have hbits : unsigned64 (signed64 (Nat.pow 2 n)) = Nat.pow 2 n := by
    rw [unsigned64_signed64]
    exact Nat.mod_eq_of_lt (Nat.pow_lt_pow_right (by decide) hn)
  have hfind : ((List.range 64).find? fun i => (Nat.pow 2 n).testBit i) = some n := by
    refine List.find?_range_eq_some.2 ⟨?_, List.mem_range.2 hn, ?_⟩
    · exact Nat.testBit_two_pow_self
    · intro i hi
      have hclear : (Nat.pow 2 n).testBit i = false := Nat.testBit_two_pow_of_ne (Nat.ne_of_gt hi)
      rw [hclear]
      rfl
  rw [lowestBit, hbits, hfind, Option.getD_some]

/-- The lowest bit of a number is one of 64, or there is none. -/
theorem Fbs.lowestBit_le (v : Int) : lowestBit v ≤ 64 := by
  unfold lowestBit
  cases hfind : (List.range 64).find? fun i => (unsigned64 v).testBit i with
  | none => decide
  | some i => exact Nat.le_of_lt (List.mem_range.1 (List.mem_of_find?_eq_some hfind))

namespace EnumDef

/-- The number by which a member is declared: its value, or the position of its bit. -/
def number (e : EnumDef) (v : EnumVal) : Int64 := .ofInt (if e.isBitFlags then Fbs.lowestBit v.value else v.value)

/-- The declaration of an enum by what it is. -/
def declaration (e : EnumDef) : EnumDoc where
  name := e.name
  scope := e.scope.dotted
  underlying := some e.underlying.base.name
  values := e.vals.map fun v => { name := v.name, value := some (e.number v), doc := v.doc }
  attributes := e.attributes
  doc := e.doc
  generated := e.generated

/-- The number that is declared for a flag is the position of its lowest bit. -/
theorem toInt_number_of_flags {e : EnumDef} (h : e.isBitFlags = true) (v : EnumVal) :
    (e.number v).toInt = Fbs.lowestBit v.value := by
  have hle := Fbs.lowestBit_le v.value
  have hsmall : IsInt64 (Fbs.lowestBit v.value) := isInt64_iff.2 (by omega)
  rw [number, if_pos h, hsmall.toInt_ofInt]

end EnumDef

namespace Resolve

/-- The number that gave a member its value is the one by which the member is declared. -/
theorem memberValue_number {e : EnumDef} {v : EnumVal} (hv : IsInt64 v.value) {base : BaseType} {context : String} {n : Int}
    (h : memberValue e.isBitFlags base context n = .ok v.value) :
    n = (e.number v).toInt ∧ (e.isBitFlags = true → 0 ≤ n ∧ n < base.size * 8 ∧ v.value = signed64 (Nat.pow 2 n.toNat)) ∧
      ∀ context', memberValue e.isBitFlags base context' n = .ok v.value := by
  unfold memberValue at h ⊢
  unfold EnumDef.number
  split at h
  next hflags =>
    obtain ⟨hrange, hvalue⟩ := ite_error_eq_ok.1 h
    have hvalue : signed64 (Nat.pow 2 n.toNat) = v.value := Except.ok.inj hvalue
    have hplace : n.toNat < 64 := by
      have hsize := base.size_le
      omega
    refine ⟨?_, fun _ => ⟨hrange.1, hrange.2, hvalue.symm⟩, fun _ => ?_⟩
    · have hsmall : IsInt64 n := isInt64_iff.2 (by omega)
      rw [if_pos hflags, ← hvalue, Fbs.lowestBit_pow hplace, Int.toNat_of_nonneg hrange.1, hsmall.toInt_ofInt]
    · rw [if_pos hflags, if_pos hrange, hvalue]
  next hflags =>
    rw [if_neg hflags, hv.toInt_ofInt]
    exact ⟨Except.ok.inj h, fun hyes => absurd hyes hflags, fun _ => by rw [if_neg hflags, h]⟩

/-- Each member of an enum has got its value from some number. -/
theorem members_numbers {names : NameTable} {doc : EnumDoc} {base : BaseType} (hunion : doc.isUnion = false) {ms : List MemberDoc} :
    ∀ {taken : List String} {next : Int} {vals : List EnumVal}, members names doc base taken next ms = .ok vals →
      ∀ v ∈ vals, v.payload = {} ∧ ∃ n, n ≠ lastInt64 ∧
        memberValue (doc.attributes.has "bit_flags") base doc.qualifiedName n = .ok v.value := by
  induction ms with
  | nil =>
    intro taken next vals h v hv
    cases h
    cases hv
  | cons m rest ih =>
    intro taken next vals h v hv
    obtain ⟨value, type, later, hlast, hvalue, htype, _, hlater, rfl⟩ := members_cons_eq_ok h
    rcases List.mem_cons.1 hv with rfl | hv
    · rw [hunion] at htype
      cases htype
      exact ⟨rfl, _, hlast, hvalue⟩
    · exact ih hlater v hv

/-- Members that are declared by numbers of their own get what the numbers give. -/
theorem members_given {names : NameTable} {doc : EnumDoc} {base : BaseType} (hunion : doc.isUnion = false) {number : EnumVal → Int64}
    {vals : List EnumVal} : ∀ {taken : List String} {next : Int}, (vals.map (·.name)).Nodup → (∀ v ∈ vals, v.name ∉ taken) →
      (∀ v ∈ vals, isIdentifier v.name = true ∧ v.payload = {} ∧ (number v).toInt ≠ lastInt64 ∧
        memberValue (doc.attributes.has "bit_flags") base doc.qualifiedName (number v).toInt = .ok v.value) →
      members names doc base taken next (vals.map fun v => { name := v.name, value := some (number v), doc := v.doc }) =
        .ok vals := by
  induction vals with
  | nil =>
    intro taken next _ _ _
    rfl
  | cons v rest ih =>
    intro taken next hdistinct hnew hvals
    obtain ⟨hname, hpayload, hlast, hvalue⟩ := hvals v List.mem_cons_self
    rw [List.map_cons, List.nodup_cons] at hdistinct
    -- the names are different, so none is taken when its turn comes
    have hrest : ∀ w ∈ rest, w.name ∉ v.name :: taken := by
      intro w hw hmem
      rcases List.mem_cons.1 hmem with heq | hmem
      · exact hdistinct.1 (heq ▸ List.mem_map_of_mem hw)
      · exact hnew w (List.mem_cons_of_mem v hw) hmem
    have hlater : members names doc base (v.name :: taken) ((number v).toInt + 1) _ = .ok rest :=
      ih hdistinct.2 hrest fun w hw => hvals w (List.mem_cons_of_mem v hw)
    have hmember : memberName { name := v.name, value := some (number v), doc := v.doc } = v.name :=
      memberName_of_isIdentifier hname
    have htaken : ¬taken.contains v.name = true := by simpa using hnew v List.mem_cons_self
    rw [List.map_cons, members]
    dsimp only
    rw [hmember, hunion, MemberDoc.number?, Option.map_some, Option.getD_some]
    refine error_ite_eq_ok.2 ⟨hlast, bind_eq_ok.2 ⟨v.value, hvalue, bind_eq_ok.2 ⟨{}, rfl, ?_⟩⟩⟩
    refine error_ite_eq_ok.2 ⟨htaken, bind_eq_ok.2 ⟨rest, hlater, ?_⟩⟩
    rw [← hpayload]
    rfl

/-- An enum is a union if its document says so. -/
theorem enum_isUnion {names : NameTable} {doc : EnumDoc} {e : EnumDef} (h : enum names doc = .ok e) :
    e.isUnion = doc.isUnion := by
  obtain ⟨base, _, h⟩ := bind_eq_ok.1 h
  obtain ⟨vals, _, h⟩ := bind_eq_ok.1 h
  cases h
  rfl

/-- An enum that is no union has the members of its document only. -/
theorem values_of_not_union {names : NameTable} {doc : EnumDoc} {base : BaseType} (hunion : doc.isUnion = false) :
    values names doc base = members names doc base [] 0 doc.values := by
  rw [values, hunion]
  rfl

/-- What each member of a resolved enum has got its value from. -/
theorem enum_numbers {names : NameTable} {doc : EnumDoc} {e : EnumDef} (h : enum names doc = .ok e) (hu : e.isUnion = false) :
    ∀ v ∈ e.vals, v.payload = {} ∧ ∃ n, n ≠ lastInt64 ∧
      memberValue e.isBitFlags e.underlying.base doc.qualifiedName n = .ok v.value := by
  obtain ⟨base, _, h⟩ := bind_eq_ok.1 h
  obtain ⟨vals, hvals, h⟩ := bind_eq_ok.1 h
  cases h
  rw [values_of_not_union hu] at hvals
  exact members_numbers hu hvals

end Resolve

/-! ## The declaration resolves to the enum -/

/-- An enum that is no union: its integer type can be named, its names are identifiers, those of its members are different, and each
member has the value that its number gives. -/
structure EnumDef.Declarable (e : EnumDef) : Prop where
  notUnion : e.isUnion = false
  underlying : ∃ base : BaseType, e.underlying = .plain base ∧ base.isInteger = true ∧ base ≠ .bool ∧ base ≠ .utype
  scope : e.scope.Named
  distinct : (e.vals.map (·.name)).Nodup
  members : ∀ v ∈ e.vals, isIdentifier v.name = true ∧ v.payload = {} ∧ (e.number v).toInt ≠ lastInt64 ∧
    ∀ context, Resolve.memberValue e.isBitFlags e.underlying.base context (e.number v).toInt = .ok v.value

/-- The declaration of an enum is read as the enum. -/
theorem EnumDef.Declarable.enum_declaration {e : EnumDef} (h : e.Declarable) (names : NameTable) :
    Resolve.enum names e.declaration = .ok e := by
  obtain ⟨base, hbase, hint, hbool, hutype⟩ := h.underlying
  have hname : BaseType.builtin? base.name = some base :=
    (BaseType.builtin?_name (.inl (by rw [BaseType.isScalar, hint, Bool.true_or])) hutype).1
  have hunderlying : Resolve.underlying e.declaration = .ok base :=
    Resolve.underlying_eq rfl (by simpa [declaration, hbase, TypeDesc.plain] using hname) hint hbool
  have hvalues : Resolve.values names e.declaration base = .ok e.vals := by
    rw [Resolve.values_of_not_union rfl]
    refine Resolve.members_given rfl h.distinct (fun _ _ => List.not_mem_nil) fun v hv => ?_
    obtain ⟨hidentifier, hpayload, hlast, hvalue⟩ := h.members v hv
    rw [hbase] at hvalue
    exact ⟨hidentifier, hpayload, hlast, hvalue _⟩
  refine bind_eq_ok.2 ⟨base, hunderlying, bind_eq_ok.2 ⟨e.vals, hvalues, ?_⟩⟩
  rw [pure_eq_ok, ← hbase, show Namespace.ofDotted e.declaration.scope = e.scope from h.scope.ofDotted_dotted]
  cases e
  cases h.notUnion
  rfl

/-- The enums of a document can be declared by what they are. -/
theorem Loaded.declarable {doc : SchemaDoc} {names : NameTable} {declared : List StructDef} {s : Schema}
    (h : Loaded doc names declared s) {e : EnumDef} (he : e ∈ s.enums) (hu : e.isUnion = false) : e.Declarable := by
  obtain ⟨hnames, henums, _⟩ := Schema.validate_eq_ok.1 h.valid
  obtain ⟨hdefinitions, _, hmembers, _⟩ := Validity.checkNames_eq_ok.1 hnames
  obtain ⟨low, high, _, hchecked⟩ := Validity.checkEnum_eq_ok.1 (henums e he)
  obtain ⟨d, _, hresolve⟩ := mapM_mem h.enums e he
  refine ⟨hu, (h.enum_resolved he).enum hu, (hdefinitions e he).2, (Validity.checkMembers_eq_ok.1 hchecked).1, fun v hv => ?_⟩
  obtain ⟨hpayload, n, hlast, hvalue⟩ := Resolve.enum_numbers hresolve hu v hv
  obtain ⟨rfl, _, hvalue⟩ := Resolve.memberValue_number (h.enum_isInt64 he v hv) hvalue
  exact ⟨hmembers e he v hv, hpayload, hlast, hvalue⟩

/-! ## The declaration in the document -/

/-- A document with another declaration in the place of an enum. -/
def SchemaDoc.withEnum (doc : SchemaDoc) (i : Nat) (d : EnumDoc) : SchemaDoc := { doc with enums := doc.enums.set i d }

/-- Replacing an element by one of the same image changes no image. -/
theorem map_set_of_eq {α β : Type} {f : α → β} {xs : List α} {i : Nat} {x y : α} (hy : xs[i]? = some y) (h : f x = f y) :
    (xs.set i x).map f = xs.map f := by
  obtain ⟨hi, _⟩ := List.getElem?_eq_some_iff.1 hy
  refine List.ext_getElem? fun k => ?_
  rw [List.getElem?_map, List.getElem?_map, List.getElem?_set]
  by_cases hk : i = k
  · subst hk
    rw [if_pos rfl, if_pos hi, hy, Option.map_some, Option.map_some, h]
  · rw [if_neg hk]

/-- The names of a document do not depend on what is declared beside the kind and the name of an enum. -/
theorem NameTable.declarations_withEnum {doc : SchemaDoc} {i : Nat} {d d' : EnumDoc} (hd : doc.enums[i]? = some d)
    (hkind : d'.kind = d.kind) (hname : d'.qualifiedName = d.qualifiedName) :
    declarations (doc.withEnum i d') = declarations doc := by
  have hsplit : ∀ doc : SchemaDoc, declarations doc =
      (doc.enums.map fun e => (e.kind, e.qualifiedName)).zipIdx.map (fun p => (p.1.1, p.1.2, Ref.enum p.2)) ++
        doc.structs.zipIdx.map (fun p => (p.1.kind, p.1.qualifiedName, Ref.struct p.2)) := by
    intro doc
    rw [List.zipIdx_map, List.map_map]
    rfl
  rw [hsplit, hsplit]
  dsimp only [SchemaDoc.withEnum]
  rw [map_set_of_eq hd (by rw [hkind, hname])]

/-- A document loads as it did if one of its enums is declared differently but read alike. -/
theorem Loaded.withEnum {doc : SchemaDoc} {names : NameTable} {declared : List StructDef} {s : Schema}
    (h : Loaded doc names declared s) {i : Nat} {d d' : EnumDoc} (hd : doc.enums[i]? = some d) (hkind : d'.kind = d.kind)
    (hname : d'.qualifiedName = d.qualifiedName) (hresolve : Resolve.enum names d' = Resolve.enum names d) :
    Loaded (doc.withEnum i d') names declared s := by
  have hmapM : ∀ ds : List EnumDoc, ds.mapM (Resolve.enum names) = (ds.map (Resolve.enum names)).mapM id := by
    intro ds
    rw [List.mapM_map]
    rfl
  refine { h with table := ?_, enums := ?_ }
  · rw [NameTable.ofDocument, NameTable.declarations_withEnum hd hkind hname]
    exact h.table
  · rw [hmapM]
    dsimp only [SchemaDoc.withEnum]
    rw [map_set_of_eq hd hresolve, ← hmapM]
    exact h.enums

/-- The schema language prints the positions of bit flags. -/
theorem Fbs.enumCode_positions {e : EnumDef} (hu : e.isUnion = false) (hflags : e.isBitFlags = true) (env : Env) :
    ∃ code, enumCode env e = .ok code ∧
      ∀ v ∈ e.vals, Step.line (s!"{v.name} = {lowestBit v.value}," : String) ∈ code := by
  refine ⟨_, by rw [enumCode, hu]; rfl, fun v hv => ?_⟩
  refine List.mem_append_right _ (Code.mem_braced (List.mem_flatMap.2 ⟨v, hv, List.mem_append_right _ ?_⟩))
  dsimp only
  rw [if_pos hflags]
  exact List.mem_singleton.2 rfl

/-- A loaded enum that is no union is declared by what it is: by its name, namespace, integer type, attributes and members in order,
each with its value, or with the position of its bit as the schema language prints it. Whatever else is declared, this resolves to
the enum itself, and in the document it may take the place of the declaration that was given. Every bit flag is two to the power of
its position, in 64 bits with a sign. -/
theorem Schema.ofDocument_redeclared {doc : SchemaDoc} {s : Schema} (h : Schema.ofDocument doc = .ok s) {i : Nat} {e : EnumDef}
    (he : s.enums[i]? = some e) (hu : e.isUnion = false) :
    (∀ names, Resolve.enum names e.declaration = .ok e) ∧
    Schema.ofDocument (doc.withEnum i e.declaration) = .ok s ∧
    (e.isBitFlags = true →
      (∀ v ∈ e.vals, Fbs.lowestBit v.value < e.underlying.base.size * 8 ∧
        v.value = signed64 (Nat.pow 2 (Fbs.lowestBit v.value))) ∧
      ∀ env, ∃ code, Fbs.enumCode env e = .ok code ∧
        ∀ v ∈ e.vals, Step.line (s!"{v.name} = {Fbs.lowestBit v.value}," : String) ∈ code) := by
  obtain ⟨⟨names, declared, hloaded⟩, hrest⟩ := Schema.ofDocument_eq_ok.1 h
  have hmem := List.mem_of_getElem? he
  have hdeclarable := hloaded.declarable hmem hu
  obtain ⟨d, hd, hresolve⟩ := (mapM_getElem? hloaded.enums).2 i e he
  obtain ⟨hscope, hname⟩ := Resolve.enum_name hresolve
  have hkind : e.declaration.kind = d.kind := by
    rw [EnumDoc.kind, EnumDoc.kind, ← Resolve.enum_isUnion hresolve, hu]
    rfl
  have hqualified : e.declaration.qualifiedName = d.qualifiedName := by
    rw [EnumDoc.qualifiedName, EnumDoc.qualifiedName, ← hscope, ← hname]
    exact congrArg (·.qualify e.name ".") hdeclarable.scope.ofDotted_dotted
  have hsame : Resolve.enum names e.declaration = Resolve.enum names d :=
    (hdeclarable.enum_declaration names).trans hresolve.symm
  refine ⟨hdeclarable.enum_declaration, ?_, fun hflags => ⟨fun v hv => ?_, Fbs.enumCode_positions hu hflags⟩⟩
  · exact Schema.ofDocument_eq_ok.2 ⟨⟨names, declared, hloaded.withEnum hd hkind hqualified hsame⟩, hrest⟩
  · obtain ⟨_, _, _, hvalue⟩ := hdeclarable.members v hv
    obtain ⟨_, hbits, _⟩ := Resolve.memberValue_number (hloaded.enum_isInt64 hmem v hv) (hvalue "")
    rw [EnumDef.toInt_number_of_flags hflags] at hbits
    obtain ⟨_, hlt, hpow⟩ := hbits hflags
    exact ⟨by omega, hpow⟩

/-- Bit flags at given and implied positions up to that of the sign, with a namespace, a type and a member that have other names
once they are resolved. -/
def positionsDoc : SchemaDoc where
  enums := [
    { name := "Bits", scope := " game . core.", underlying := some "int64", attributes := [("bit_flags", "")],
      values := [{ name := "a.b", value := some 61 }, { name := "Next" }, { name := "Sign" }, { name := "Low", value := some 0 }] }]
  structs := [{ name := "T", fields := [{ name := "bits", type := "game.core.Bits", default := some (.string "Low") }] }]

/-- The enum of the document. -/
def positionsEnum : EnumDef where
  name := "Bits"
  scope := ⟨["game", "core"]⟩
  attributes := [("bit_flags", "")]
  underlying := .plain .long
  vals := [
    { name := "a_b", value := 2305843009213693952 }, { name := "Next", value := 4611686018427387904 },
    { name := "Sign", value := -9223372036854775808 }, { name := "Low", value := 1 }]

/-- Flags up to the sign, declared again by their positions: the document loads as the same schema. -/
theorem positionsDoc_redeclared : ∃ s, Schema.ofDocument positionsDoc = .ok s ∧ s.enums[0]? = some positionsEnum ∧
    positionsEnum.declaration.values.map (fun m => (m.name, m.value)) =
      [("a_b", some 61), ("Next", some 62), ("Sign", some 63), ("Low", some 0)] ∧
    Resolve.enum [] positionsEnum.declaration = .ok positionsEnum ∧
    Schema.ofDocument (positionsDoc.withEnum 0 positionsEnum.declaration) = .ok s := by
  obtain ⟨s, hs, he⟩ := Schema.exists_ofDocument positionsDoc (·.enums[0]?) (some positionsEnum) (by decide +kernel)
  obtain ⟨hresolve, hdoc, _⟩ := Schema.ofDocument_redeclared hs he rfl
  exact ⟨s, hs, he, by decide +kernel, hresolve [], hdoc⟩

end FlatSchema

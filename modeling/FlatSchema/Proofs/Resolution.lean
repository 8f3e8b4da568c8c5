import FlatSchema.Loading
import FlatSchema.Proofs.Placement

/-!
# What names and types resolve to

A name denotes a definition of the document, so what it resolves to is a place in the schema. A type expression therefore
denotes one of a few kinds of type (`Denoted`), and the fields of a struct or table are declared fields of such types, with a
hidden field in front of every union (`Declared`). Each function of the resolution has one lemma that opens it.
-/

namespace FlatSchema

/-! ## Names -/

/-- A name refers to an enum or struct of a document with the given numbers of them. -/
def Ref.InRange (enums structs : Nat) : Ref → Prop
  | .enum i => i < enums
  | .struct i => i < structs

namespace NameTable

/-- Every name of a table refers to a definition. -/
def InRange (enums structs : Nat) (table : NameTable) : Prop := ∀ entry ∈ table, entry.2.InRange enums structs

/-- Declaring names keeps the references in range. -/
theorem extend_inRange {enums structs : Nat} : ∀ {declarations : List (DefKind × String × Ref)} {table result : NameTable},
    extend table declarations = .ok result → table.InRange enums structs →
      (∀ d ∈ declarations, d.2.2.InRange enums structs) → result.InRange enums structs
  | [], table, result, h, ht, _ => by
    cases h
    exact ht
  | (kind, name, ref) :: rest, table, result, h, ht, hd => by
    rw [extend] at h
    obtain ⟨_, h⟩ := error_ite_eq_ok.1 h
    refine extend_inRange h ?_ fun d hd' => hd d (List.mem_cons_of_mem _ hd')
    intro entry hentry
    rcases List.mem_append.1 hentry with hentry | hentry
    · exact ht entry hentry
    · rw [List.mem_singleton] at hentry
      subst hentry
      exact hd (kind, name, ref) List.mem_cons_self

/-- The names of a document refer to its definitions. -/
theorem ofDocument_inRange {doc : SchemaDoc} {table : NameTable} (h : ofDocument doc = .ok table) :
    table.InRange doc.enums.length doc.structs.length := by
  refine extend_inRange h (fun entry hentry => absurd hentry List.not_mem_nil) ?_
  intro d hd
  rcases List.mem_append.1 hd with hd | hd
  · obtain ⟨⟨e, i⟩, he, rfl⟩ := List.mem_map.1 hd
    exact (List.mem_zipIdx' he).1
  · obtain ⟨⟨s, i⟩, hs, rfl⟩ := List.mem_map.1 hd
    exact (List.mem_zipIdx' hs).1

/-- What a name stands for is in range. -/
theorem lookup_inRange {enums structs : Nat} {table : NameTable} (h : table.InRange enums structs) {name : String} {ref : Ref}
    (hr : table.lookup name = some ref) : ref.InRange enums structs := by
  obtain ⟨before, after, rfl, _⟩ := List.lookup_eq_some_iff.1 hr
  exact h (name, ref) (List.mem_append_right before List.mem_cons_self)

/-- What a name stands for inside a namespace is in range. -/
theorem find?_inRange {enums structs : Nat} {table : NameTable} (h : table.InRange enums structs) {name : String}
    {scope : Namespace} {ref : Ref} (hr : table.find? name scope = some ref) : ref.InRange enums structs := by
  unfold find? at hr
  obtain ⟨n, _, hn⟩ := List.exists_of_findSome?_eq_some hr
  exact lookup_inRange h hn

end NameTable

/-! ## Enums and unions -/

/-- The built-in names are those of strings and of scalars other than discriminants. -/
theorem BaseType.builtin?_spec {name : String} {b : BaseType} (h : BaseType.builtin? name = some b) :
    (b.isScalar = true ∨ b = .string) ∧ b ≠ .utype := by
  obtain ⟨before, after, hl, _⟩ := List.lookup_eq_some_iff.1 h
  have hmem : (name, b) ∈ BaseType.builtins := hl ▸ List.mem_append_right before List.mem_cons_self
  have hall : ∀ entry ∈ BaseType.builtins, (entry.2.isScalar = true ∨ entry.2 = .string) ∧ entry.2 ≠ .utype := by decide
  exact hall (name, b) hmem

/-- What is known of a resolved enum or union: its integer type, and what its members carry. -/
structure EnumDef.Resolved (structs : Nat) (e : EnumDef) : Prop where
  union : e.isUnion = true → e.underlying = .plain .utype
  enum : e.isUnion = false →
    ∃ b : BaseType, e.underlying = .plain b ∧ b.isInteger = true ∧ b ≠ .bool ∧ b ≠ .utype
  payload : ∀ v ∈ e.vals, v.payload = {} ∨ v.payload = .plain .string ∨ ∃ i < structs, v.payload = .record i

namespace Resolve

/-- A union has the type of discriminants, and an enum an integer type other than those and booleans. -/
theorem underlying_spec {doc : EnumDoc} {b : BaseType} (h : underlying doc = .ok b) :
    (doc.isUnion = true ∧ b = .utype) ∨ (doc.isUnion = false ∧ b.isInteger = true ∧ b ≠ .bool ∧ b ≠ .utype) := by
  unfold underlying at h
  split at h
  next hu =>
    cases h
    exact .inl ⟨hu, rfl⟩
  next hu =>
    dsimp only at h
    split at h
    next b' hb =>
      obtain ⟨hok, h⟩ := ite_error_eq_ok.1 h
      cases h
      rw [Bool.and_eq_true, bne_iff_ne] at hok
      exact .inr ⟨Bool.not_eq_true _ ▸ hu, hok.1, hok.2, (BaseType.builtin?_spec hb).2⟩
    next => nomatch h

/-- The payload of a variant is a string or a struct. -/
theorem payload_spec {enums structs : Nat} {names : NameTable} (hnames : names.InRange enums structs) {scope : Namespace}
    {context name : String} {t : TypeDesc} (h : payload names scope context name = .ok t) :
    t = .plain .string ∨ ∃ i < structs, t = .record i := by
  unfold payload at h
  split at h
  next =>
    cases h
    exact .inl rfl
  next =>
    split at h
    next i hi =>
      cases h
      exact .inr ⟨i, NameTable.find?_inRange hnames hi, rfl⟩
    next => nomatch h
    next => nomatch h

/-- One step of resolving members: the first member gets its value and payload, under a name that is not taken. -/
theorem members_cons_eq_ok {names : NameTable} {doc : EnumDoc} {base : BaseType} {taken : List String} {next : Int}
    {m : MemberDoc} {rest : List MemberDoc} {vals : List EnumVal}
    (h : members names doc base taken next (m :: rest) = .ok vals) :
    ∃ value type later, m.number?.getD next ≠ Int.pow 2 63 - 1 ∧
      memberValue (doc.attributes.has "bit_flags") base doc.qualifiedName (m.number?.getD next) = .ok value ∧
      (if doc.isUnion then payload names (Namespace.ofDotted doc.scope) doc.qualifiedName (m.type.getD m.name)
        else .ok {}) = .ok type ∧
      memberName m ∉ taken ∧
      members names doc base (memberName m :: taken) (m.number?.getD next + 1) rest = .ok later ∧
      vals = { name := memberName m, value, payload := type, doc := m.doc } :: later := by
  rw [members] at h
  obtain ⟨hmax, h⟩ := error_ite_eq_ok.1 h
  obtain ⟨value, hvalue, h⟩ := bind_eq_ok.1 h
  obtain ⟨type, htype, h⟩ := ite_bind_eq_ok.1 h
  obtain ⟨htaken, h⟩ := error_ite_eq_ok.1 h
  obtain ⟨later, hlater, h⟩ := bind_eq_ok.1 h
  cases h
  exact ⟨value, type, later, hmax, hvalue, htype, by simpa using htaken, hlater, rfl⟩

/-- The payloads of members are empty, strings or structs. -/
theorem members_payload {enums structs : Nat} {names : NameTable} (hnames : names.InRange enums structs) {doc : EnumDoc}
    {base : BaseType} :
    ∀ {taken : List String} {next : Int} {docs : List MemberDoc} {vals : List EnumVal},
      members names doc base taken next docs = .ok vals →
        ∀ v ∈ vals, v.payload = {} ∨ v.payload = .plain .string ∨ ∃ i < structs, v.payload = .record i
  | _, _, [], vals, h, v, hv => by
    cases h
    exact absurd hv List.not_mem_nil
  | _, _, m :: rest, vals, h, v, hv => by
    obtain ⟨value, type, later, _, _, htype, _, hlater, rfl⟩ := members_cons_eq_ok h
    rcases List.mem_cons.1 hv with rfl | hv
    · split at htype
      next => exact .inr (payload_spec hnames htype)
      next =>
        cases htype
        exact .inl rfl
    · exact members_payload hnames hlater v hv

/-- The same with the empty variant that every union has. -/
theorem values_payload {enums structs : Nat} {names : NameTable} (hnames : names.InRange enums structs) {doc : EnumDoc}
    {base : BaseType} {vals : List EnumVal} (h : values names doc base = .ok vals) :
    ∀ v ∈ vals, v.payload = {} ∨ v.payload = .plain .string ∨ ∃ i < structs, v.payload = .record i := by
  intro v hv
  unfold values at h
  split at h
  next =>
    obtain ⟨variants, hvariants, h⟩ := bind_eq_ok.1 h
    cases h
    rcases List.mem_cons.1 hv with rfl | hv
    · exact .inl rfl
    · exact members_payload hnames hvariants v hv
  next => exact members_payload hnames h v hv

/-- An enum that is read is resolved. -/
theorem enum_resolved {enums structs : Nat} {names : NameTable} (hnames : names.InRange enums structs) {doc : EnumDoc}
    {e : EnumDef} (h : enum names doc = .ok e) : e.Resolved structs := by
  obtain ⟨base, hbase, h⟩ := bind_eq_ok.1 h
  obtain ⟨vals, hvals, h⟩ := bind_eq_ok.1 h
  cases h
  refine ⟨fun hu => ?_, fun hu => ?_, values_payload hnames hvals⟩
  · rcases underlying_spec hbase with ⟨_, rfl⟩ | ⟨hno, _⟩
    · rfl
    · exact absurd (hu.symm.trans hno) Bool.noConfusion
  · rcases underlying_spec hbase with ⟨hyes, _⟩ | ⟨_, hbase⟩
    · exact absurd (hu.symm.trans hyes) Bool.noConfusion
    · exact ⟨base, rfl, hbase⟩

end Resolve

/-! ## Types -/

/-- The types that a name can denote, beside given enums and a given number of structs. -/
inductive Denoted (enums : List EnumDef) (structs : Nat) : TypeDesc → Prop
  | plain {b : BaseType} (hb : b.isScalar = true ∨ b = .string) (hu : b ≠ .utype) : Denoted enums structs (.plain b)
  | enumeration {b : BaseType} {i : Nat} {e : EnumDef} (he : enums[i]? = some e) (hno : e.isUnion = false)
    (hb : e.underlying = .plain b) (hint : b.isInteger = true) (hbool : b ≠ .bool) (hu : b ≠ .utype) :
    Denoted enums structs (.enumeration b i)
  | record {i : Nat} (hi : i < structs) : Denoted enums structs (.record i)
  | union {i : Nat} {e : EnumDef} (he : enums[i]? = some e) (hyes : e.isUnion = true) : Denoted enums structs (.union i)

namespace Denoted

variable {enums : List EnumDef} {structs : Nat} {t : TypeDesc}

/-- A name denotes no container, and it denotes something. -/
theorem base_ne (ht : Denoted enums structs t) :
    t.base ≠ .none ∧ t.base ≠ .vector ∧ t.base ≠ .array ∧ t.base ≠ .utype := by
  cases ht with
  | @plain b hb hu =>
    refine ⟨?_, ?_, ?_, hu⟩ <;> (rintro (rfl : b = _); nomatch hb)
  | @enumeration b _ _ _ _ _ hint _ hu =>
    refine ⟨?_, ?_, ?_, hu⟩ <;> (rintro (rfl : b = _); nomatch hint)
  | record hi => exact ⟨nofun, nofun, nofun, nofun⟩
  | union he hyes => exact ⟨nofun, nofun, nofun, nofun⟩

/-- A type that is named and has the base type of unions is a union. -/
theorem eq_union (ht : Denoted enums structs t) (hu : t.base = .union) :
    ∃ i e, t = .union i ∧ enums[i]? = some e ∧ e.isUnion = true := by
  cases ht with
  | plain hb =>
    cases hu
    nomatch hb
  | enumeration _ _ _ hint =>
    cases hu
    nomatch hint
  | record hi => nomatch hu
  | @union i e he hyes => exact ⟨i, e, rfl, he, hyes⟩

end Denoted

/-- The types that an expression can denote. -/
inductive Expressed (enums : List EnumDef) (structs : Nat) : TypeDesc → Prop
  | name {t : TypeDesc} (ht : Denoted enums structs t) : Expressed enums structs t
  | vector {t : TypeDesc} (ht : Denoted enums structs t) : Expressed enums structs (.vectorOf t)
  | array {t : TypeDesc} {n : Nat} (ht : Denoted enums structs t) (hpos : 1 ≤ n) (hn : n ≤ 65535) :
    Expressed enums structs (.arrayOf t n)

/-- A number that is read fits into its bits. -/
theorem readUnsigned?_lt {bits n : Nat} {text : String} (h : readUnsigned? bits text = some n) :
    n < Nat.pow 2 bits := by
  unfold readUnsigned? at h
  obtain ⟨m, _, hm⟩ := Option.bind_eq_some_iff.1 h
  split at hm
  next hlt =>
    cases hm
    exact hlt
  next => nomatch hm

namespace TypeExpr

/-- A name stands for a built-in type or for a definition. -/
theorem resolveName_denoted {names : NameTable} {enums : List EnumDef} {structs : Nat}
    (hnames : names.InRange enums.length structs) (henums : ∀ e ∈ enums, e.Resolved structs) {scope : Namespace}
    {context name : String} {t : TypeDesc} (h : resolveName names enums scope context name = .ok t) :
    Denoted enums structs t := by
  unfold resolveName at h
  split at h
  next b hb =>
    cases h
    obtain ⟨hscalar, hutype⟩ := BaseType.builtin?_spec hb
    exact .plain hscalar hutype
  next =>
    split at h
    next i hi =>
      cases h
      exact .record (NameTable.find?_inRange hnames hi)
    next i hi =>
      split at h
      next e he =>
        cases h
        cases hu : e.isUnion with
        | true => exact .union he hu
        | false =>
          obtain ⟨b, hb, hint, hbool, hutype⟩ := (henums e (List.mem_of_getElem? he)).enum hu
          rw [hb]
          exact .enumeration he hu hb hint hbool hutype
      next => nomatch h
    next => nomatch h

/-- The length of an array is positive and has at most 16 bits. -/
theorem readLength_range {text : List Char} {n : Nat} (h : readLength text = .ok n) : 1 ≤ n ∧ n ≤ 65535 := by
  unfold readLength at h
  split at h
  next => nomatch h
  next => nomatch h
  next m hzero hread =>
    cases h
    have hlt : n < 65536 := readUnsigned?_lt hread
    have hpos : n ≠ 0 := hzero
    omega

/-- The length of an array has 16 bits and is not zero. -/
theorem read_array_range {text : List Char} {e : String} {n : Nat} (h : read text = .ok (.array e n)) :
    1 ≤ n ∧ n ≤ 65535 := by
  unfold read at h
  split at h
  next inner =>
    split at h
    next => nomatch h
    next =>
      split at h
      next element length _ =>
        obtain ⟨m, hm, h⟩ := bind_eq_ok.1 h
        obtain ⟨e', _, h⟩ := bind_eq_ok.1 h
        cases h
        exact readLength_range hm
      next =>
        obtain ⟨e', _, h⟩ := bind_eq_ok.1 h
        nomatch h
  next => nomatch h

/-- The text of a type stands for a named type, or for a vector or array of one. -/
theorem typeOf_expressed {names : NameTable} {enums : List EnumDef} {structs : Nat}
    (hnames : names.InRange enums.length structs) (henums : ∀ e ∈ enums, e.Resolved structs) {scope : Namespace}
    {context text : String} {t : TypeDesc} (h : typeOf names enums scope context text = .ok t) :
    Expressed enums structs t := by
  unfold typeOf at h
  dsimp only at h
  split at h
  next expr hread =>
    cases expr with
    | name e => exact .name (resolveName_denoted hnames henums h)
    | vector e =>
      obtain ⟨element, he, h⟩ := bind_eq_ok.1 h
      cases h
      exact .vector (resolveName_denoted hnames henums he)
    | array e n =>
      obtain ⟨element, he, h⟩ := bind_eq_ok.1 h
      cases h
      obtain ⟨hpos, hn⟩ := read_array_range hread
      exact .array (resolveName_denoted hnames henums he) hpos hn
  next => nomatch h

end TypeExpr

/-! ## Fields -/

/-- The first field holds the discriminant of the second, a union or a vector of unions. -/
def FieldDef.Tags (tag f : FieldDef) : Prop :=
  tag.name = f.name ++ FieldDef.discriminantSuffix ∧
    ∃ i, (f.type = .union i ∧ tag.type = .discriminant i) ∨
      (f.type = .vectorOf (.union i) ∧ tag.type = .vectorOf (.discriminant i))

/-- An expression that mentions a union as its value or its elements denotes the union or a vector of it. -/
theorem Expressed.eq_union {enums : List EnumDef} {structs : Nat} {t : TypeDesc} (ht : Expressed enums structs t)
    (hu : (t.isUnion || t.isUnionVector) = true) : ∃ i, t = .union i ∨ t = .vectorOf (.union i) := by
  simp only [TypeDesc.isUnion, TypeDesc.isUnionVector, TypeDesc.isVector, Bool.or_eq_true, Bool.and_eq_true,
    beq_iff_eq] at hu
  cases ht with
  | name ht =>
    rcases hu with hu | ⟨hv, _⟩
    · obtain ⟨i, _, rfl, _⟩ := ht.eq_union hu
      exact ⟨i, .inl rfl⟩
    · exact absurd hv ht.base_ne.2.1
  | vector ht =>
    rcases hu with hu | ⟨_, hu⟩
    · nomatch hu
    · obtain ⟨i, _, rfl, _⟩ := ht.eq_union hu
      exact ⟨i, .inr rfl⟩
  | array ht =>
    rcases hu with hu | ⟨hv, _⟩
    · nomatch hu
    · nomatch hv

/-- Resolved fields: each has the type of an expression, and those of unions have their discriminants in front of them. -/
inductive Declared (enums : List EnumDef) (structs : Nat) : List FieldDef → Prop
  | nil : Declared enums structs []
  | field {f : FieldDef} {rest : List FieldDef} (ht : Expressed enums structs f.type)
    (hu : (f.type.isUnion || f.type.isUnionVector) = false) (hn : ∀ i, f.nested = some i → i < structs)
    (hrest : Declared enums structs rest) : Declared enums structs (f :: rest)
  | tagged {tag f : FieldDef} {rest : List FieldDef} (htag : tag.Tags f) (ht : Expressed enums structs f.type)
    (hn : ∀ i, f.nested = some i → i < structs) (htn : tag.nested = none)
    (hrest : Declared enums structs rest) : Declared enums structs (tag :: f :: rest)

namespace Resolve

/-- A nested root is in range. -/
theorem nested_lt {enums structs : Nat} {names : NameTable} (hnames : names.InRange enums structs) {scope : Namespace}
    {context : String} {declared : Option String} {found : Option Nat}
    (h : nested names scope context declared = .ok found) : ∀ i, found = some i → i < structs := by
  rintro i rfl
  unfold nested at h
  split at h
  next => nomatch h
  next name =>
    split at h
    next j hj =>
      cases h
      exact NameTable.find?_inRange hnames hj
    next => nomatch h

/-- One step of resolving fields: the first field gets its type, the field that goes in front of it and its default. -/
theorem fields_cons_eq_ok {names : NameTable} {enums : List EnumDef} {scope : Namespace} {context : String}
    {taken : List String} {doc : FieldDoc} {rest : List FieldDoc} {fs : List FieldDef}
    (h : fields names enums scope context taken (doc :: rest) = .ok fs) :
    ∃ t hidden f later, TypeExpr.typeOf names enums scope s!"{context}.{doc.name}" doc.type = .ok t ∧
      hiddenFields doc t s!"{context}.{doc.name}" = .ok hidden ∧
      field names enums scope s!"{context}.{doc.name}" doc t = .ok f ∧ f.name ∉ hidden.map (·.name) ++ taken ∧
      fields names enums scope context (f.name :: (hidden.map (·.name) ++ taken)) rest = .ok later ∧
      fs = hidden ++ f :: later := by
  rw [fields] at h
  obtain ⟨t, ht, h⟩ := bind_eq_ok.1 h
  obtain ⟨hidden, hhidden, h⟩ := bind_eq_ok.1 h
  obtain ⟨f, hf, h⟩ := bind_eq_ok.1 h
  obtain ⟨htaken, h⟩ := error_ite_eq_ok.1 h
  obtain ⟨later, hlater, h⟩ := bind_eq_ok.1 h
  cases h
  exact ⟨t, hidden, f, later, ht, hhidden, hf, by simpa using htaken, hlater, rfl⟩

/-- A declared field has the name of its document and the type it is given, and it is not laid out. -/
theorem field_eq_ok {names : NameTable} {enums : List EnumDef} {scope : Namespace} {context : String} {doc : FieldDoc}
    {t : TypeDesc} {f : FieldDef} (h : field names enums scope context doc t = .ok f) :
    ∃ constant found, Default.constant enums t context doc.default = .ok constant ∧
      nested names scope context doc.nested = .ok found ∧
      f = { name := doc.name, type := t, constant, doc := doc.doc, attributes := doc.attributes, deprecated := doc.deprecated,
            required := doc.required, key := doc.key, nested := found } := by
  obtain ⟨constant, hconstant, h⟩ := bind_eq_ok.1 h
  obtain ⟨found, hfound, h⟩ := bind_eq_ok.1 h
  cases h
  exact ⟨constant, found, hconstant, hfound, rfl⟩

/-- A struct keeps the name, the flag and the attributes of its document. -/
theorem struct_eq_ok {names : NameTable} {enums : List EnumDef} {doc : StructDoc} {d : StructDef}
    (h : struct names enums doc = .ok d) :
    fields names enums (Namespace.ofDotted doc.scope) doc.qualifiedName [] doc.fields = .ok d.fields ∧
      d.fixed = doc.fixed ∧ d.attributes = doc.attributes ∧ d.name = doc.name := by
  obtain ⟨fs, hfs, h⟩ := bind_eq_ok.1 h
  cases h
  exact ⟨hfs, rfl, rfl, rfl⟩

/-- A field has a hidden one if its type is a union or a vector of unions. -/
theorem hiddenFields_eq_ok {doc : FieldDoc} {t : TypeDesc} {context : String} {hidden : List FieldDef}
    (h : hiddenFields doc t context = .ok hidden) :
    ((t.isUnion || t.isUnionVector) = false ∧ hidden = []) ∨
      ∃ i, (t.isUnion || t.isUnionVector) = true ∧ t.enumRef = some i ∧ hidden = [hiddenField doc t i] := by
  unfold hiddenFields at h
  split at h
  next hu =>
    split at h
    next i hi =>
      cases h
      exact .inr ⟨i, hu, hi, rfl⟩
    next => nomatch h
  next hu =>
    cases h
    exact .inl ⟨Bool.not_eq_true _ ▸ hu, rfl⟩

/-- The hidden field tells the variant: it is a discriminant of the same union, in a vector if the field is one. -/
theorem hiddenField_tags {doc : FieldDoc} {f : FieldDef} {i j : Nat} (hname : f.name = doc.name)
    (ht : f.type = .union j ∨ f.type = .vectorOf (.union j)) (hi : f.type.enumRef = some i) :
    (hiddenField doc f.type i).Tags f := by
  refine ⟨by rw [hname]; rfl, j, ?_⟩
  rcases ht with ht | ht
  · rw [ht] at hi ⊢
    cases hi
    exact .inl ⟨rfl, rfl⟩
  · rw [ht] at hi ⊢
    cases hi
    exact .inr ⟨rfl, rfl⟩

/-- The fields of a struct or table are declared fields, with the discriminants in front of their unions. -/
theorem fields_declared {names : NameTable} {enums : List EnumDef} {structs : Nat}
    (hnames : names.InRange enums.length structs) (henums : ∀ e ∈ enums, e.Resolved structs) {scope : Namespace}
    {context : String} :
    ∀ {taken : List String} {docs : List FieldDoc} {fs : List FieldDef},
      fields names enums scope context taken docs = .ok fs → Declared enums structs fs
  | _, [], fs, h => by
    cases h
    exact .nil
  | _, doc :: rest, fs, h => by
    obtain ⟨t, hidden, f, later, ht, hhidden, hf, _, hlater, rfl⟩ := fields_cons_eq_ok h
    obtain ⟨constant, found, _, hfound, rfl⟩ := field_eq_ok hf
    have ht := TypeExpr.typeOf_expressed hnames henums ht
    have hrest := fields_declared hnames henums hlater
    rcases hiddenFields_eq_ok hhidden with ⟨hu, rfl⟩ | ⟨i, hu, hi, rfl⟩
    · exact .field ht hu (nested_lt hnames hfound) hrest
    · obtain ⟨j, hj⟩ := ht.eq_union hu
      exact .tagged (hiddenField_tags rfl hj hi) ht (nested_lt hnames hfound) rfl hrest

/-- Resolution does not lay out. -/
theorem fields_padding {names : NameTable} {enums : List EnumDef} {scope : Namespace} {context : String} :
    ∀ {taken : List String} {docs : List FieldDoc} {fs : List FieldDef},
      fields names enums scope context taken docs = .ok fs → ∀ f ∈ fs, f.padding = 0
  | _, [], fs, h, g, hg => by
    cases h
    exact absurd hg List.not_mem_nil
  | _, doc :: rest, fs, h, g, hg => by
    obtain ⟨t, hidden, f, later, _, hhidden, hf, _, hlater, rfl⟩ := fields_cons_eq_ok h
    obtain ⟨constant, found, _, _, rfl⟩ := field_eq_ok hf
    rcases List.mem_append.1 hg with hg | hg
    · rcases hiddenFields_eq_ok hhidden with ⟨_, rfl⟩ | ⟨i, _, _, rfl⟩
      · exact absurd hg List.not_mem_nil
      · rw [List.mem_singleton.1 hg]
        rfl
    · rcases List.mem_cons.1 hg with rfl | hg
      · rfl
      · exact fields_padding hlater g hg

/-- The root is in range. -/
theorem root_lt {names : NameTable} {structs : List StructDef} {enums : Nat} (hnames : names.InRange enums structs.length)
    {declared : Option String} {found : Option Nat} (h : root names structs declared = .ok found) :
    ∀ i, found = some i → i < structs.length := by
  rintro i rfl
  unfold root at h
  split at h
  next => cases h
  next name =>
    split at h
    next => cases h
    next j hj =>
      obtain ⟨_, h⟩ := error_ite_eq_ok.1 h
      cases h
      unfold rootIndex? at hj
      split at hj
      next k hk =>
        cases hj
        exact NameTable.lookup_inRange hnames hk
      next =>
        split at hj
        next d k hone =>
          cases hj
          have hmem : (d, i) ∈ [(d, i)] := List.mem_singleton_self _
          rw [← hone] at hmem
          exact (List.mem_zipIdx' (List.mem_filter.1 hmem).1).1
        next => cases hj

end Resolve

/-- Being declared does not depend on the layout. -/
theorem Declared.congr {enums : List EnumDef} {structs : Nat} :
    ∀ {fs gs : List FieldDef}, Declared enums structs fs → gs.map FieldDef.unplaced = fs.map FieldDef.unplaced →
      Declared enums structs gs := by
  intro fs gs h
  induction h generalizing gs with
  | nil =>
    intro hmap
    rw [List.map_nil, List.map_eq_nil_iff] at hmap
    rw [hmap]
    exact .nil
  | @field f rest ht hu hn _ ih =>
    intro hmap
    rw [List.map_cons] at hmap
    obtain ⟨g, later, rfl, hg, hlater⟩ := List.map_eq_cons_iff.1 hmap
    rw [FieldDef.of_unplaced hg]
    exact .field ht hu hn (ih hlater)
  | @tagged tag f rest htag ht hn htn _ ih =>
    intro hmap
    rw [List.map_cons, List.map_cons] at hmap
    obtain ⟨tag', rest', rfl, htag', hrest'⟩ := List.map_eq_cons_iff.1 hmap
    obtain ⟨g, later, rfl, hg, hlater⟩ := List.map_eq_cons_iff.1 hrest'
    rw [FieldDef.of_unplaced hg, FieldDef.of_unplaced htag']
    exact .tagged htag ht hn htn (ih hlater)

/-! ## Documents -/

/-- The steps by which the names of a document are resolved: its name table, its structs before they are laid out, and the schema,
which is not checked yet. -/
structure Resolved (doc : SchemaDoc) (names : NameTable) (declared : List StructDef) (s : Schema) : Prop where
  table : NameTable.ofDocument doc = .ok names
  enums : doc.enums.mapM (Resolve.enum names) = .ok s.enums
  structs : doc.structs.mapM (Resolve.struct names s.enums) = .ok declared
  layout : Layout.placeAll declared = .ok s.structs
  root : Resolve.root names s.structs doc.rootType = .ok s.root

/-- A document is resolved by these steps, beside which only its own name and file properties are kept. -/
theorem Resolve.schema_eq_ok {doc : SchemaDoc} {s : Schema} :
    Resolve.schema doc = .ok s ↔ (∃ names declared, Resolved doc names declared s) ∧ s.fileName = doc.fileName ∧
      Resolve.identifier doc.fileIdentifier = .ok s.fileIdentifier ∧ s.fileExtension = doc.fileExtension := by
  constructor
  · intro hs
    obtain ⟨names, hnames, hs⟩ := bind_eq_ok.1 hs
    obtain ⟨enums, henums, hs⟩ := bind_eq_ok.1 hs
    obtain ⟨declared, hdeclared, hs⟩ := bind_eq_ok.1 hs
    obtain ⟨structs, hstructs, hs⟩ := bind_eq_ok.1 hs
    obtain ⟨root, hroot, hs⟩ := bind_eq_ok.1 hs
    obtain ⟨identifier, hidentifier, hs⟩ := bind_eq_ok.1 hs
    cases hs
    exact ⟨⟨names, declared, hnames, henums, hdeclared, hstructs, hroot⟩, rfl, hidentifier, rfl⟩
  · rintro ⟨⟨names, declared, h⟩, hname, hidentifier, hextension⟩
    refine bind_eq_ok.2 ⟨names, h.table, bind_eq_ok.2 ⟨s.enums, h.enums, bind_eq_ok.2 ⟨declared, h.structs, ?_⟩⟩⟩
    refine bind_eq_ok.2 ⟨s.structs, h.layout, bind_eq_ok.2 ⟨s.root, h.root, bind_eq_ok.2 ⟨_, hidentifier, ?_⟩⟩⟩
    rw [← hname, ← hextension]
    rfl

namespace Resolved

variable {doc : SchemaDoc} {names : NameTable} {declared : List StructDef} {s : Schema}

/-- The structs of the schema are those of the document, placed. -/
theorem placed (h : Resolved doc names declared s) : Layout.Placed declared s.structs :=
  Layout.placeAll_placed h.layout

/-- The references of the table of names are in range. -/
theorem names_inRange (h : Resolved doc names declared s) : names.InRange s.enums.length s.structs.length := by
  rw [(mapM_getElem? h.enums).1, h.placed.length_eq, (mapM_getElem? h.structs).1]
  exact NameTable.ofDocument_inRange h.table

theorem enum_resolved (h : Resolved doc names declared s) {e : EnumDef} (he : e ∈ s.enums) : e.Resolved s.structs.length := by
  obtain ⟨d, _, hd⟩ := mapM_mem h.enums e he
  exact Resolve.enum_resolved h.names_inRange hd

/-- The fields of a struct are declared: their types are resolved, and none of them is padded yet. -/
theorem struct_declared (h : Resolved doc names declared s) {d : StructDef} (hd : d ∈ declared) :
    Declared s.enums s.structs.length d.fields ∧ ∀ f ∈ d.fields, f.padding = 0 := by
  obtain ⟨sd, _, hsd⟩ := mapM_mem h.structs d hd
  have hfields := (Resolve.struct_eq_ok hsd).1
  exact ⟨Resolve.fields_declared h.names_inRange (fun e he => h.enum_resolved he) hfields, Resolve.fields_padding hfields⟩

/-- The fields of a struct or table of the schema are declared fields. -/
theorem declared_fields (h : Resolved doc names declared s) {d : StructDef} (hd : d ∈ s.structs) :
    Declared s.enums s.structs.length d.fields := by
  obtain ⟨i, hi⟩ := List.mem_iff_getElem?.1 hd
  obtain ⟨d', hd', hu⟩ := h.placed.unplaced hi
  exact (h.struct_declared (List.mem_of_getElem? hd')).1.congr (congrArg StructDef.fields hu)

end Resolved

/-- The steps by which a document has become a schema: its names, its structs before they are laid out, and the schema. -/
structure Loaded (doc : SchemaDoc) (names : NameTable) (declared : List StructDef) (s : Schema) : Prop where
  table : NameTable.ofDocument doc = .ok names
  enums : doc.enums.mapM (Resolve.enum names) = .ok s.enums
  structs : doc.structs.mapM (Resolve.struct names s.enums) = .ok declared
  layout : Layout.placeAll declared = .ok s.structs
  root : Resolve.root names s.structs doc.rootType = .ok s.root
  valid : s.validate = .ok ()

/-- A schema that is loaded is resolved. -/
theorem Loaded.resolved {doc : SchemaDoc} {names : NameTable} {declared : List StructDef} {s : Schema}
    (h : Loaded doc names declared s) : Resolved doc names declared s :=
  ⟨h.table, h.enums, h.structs, h.layout, h.root⟩

/-- A document gives a schema by these steps, beside which only its own name and file properties are kept. -/
theorem Schema.ofDocument_eq_ok {doc : SchemaDoc} {s : Schema} :
    Schema.ofDocument doc = .ok s ↔ (∃ names declared, Loaded doc names declared s) ∧ s.fileName = doc.fileName ∧
      Resolve.identifier doc.fileIdentifier = .ok s.fileIdentifier ∧ s.fileExtension = doc.fileExtension := by
  constructor
  · intro h
    obtain ⟨s', hs, h⟩ := bind_eq_ok.1 h
    obtain ⟨_, hvalid, h⟩ := bind_eq_ok.1 h
    cases h
    obtain ⟨⟨names, declared, h⟩, hkept⟩ := Resolve.schema_eq_ok.1 hs
    exact ⟨⟨names, declared, h.table, h.enums, h.structs, h.layout, h.root, hvalid⟩, hkept⟩
  · rintro ⟨⟨names, declared, h⟩, hkept⟩
    have hs := Resolve.schema_eq_ok.2 ⟨⟨names, declared, h.resolved⟩, hkept⟩
    exact bind_eq_ok.2 ⟨s, hs, bind_eq_ok.2 ⟨(), h.valid, rfl⟩⟩

/-- A document that gives a schema is loaded. -/
theorem Schema.ofDocument_loaded {doc : SchemaDoc} {s : Schema} (h : Schema.ofDocument doc = .ok s) :
    ∃ names declared, Loaded doc names declared s :=
  (Schema.ofDocument_eq_ok.1 h).1

namespace Loaded

variable {doc : SchemaDoc} {names : NameTable} {declared : List StructDef} {s : Schema}

theorem placed (h : Loaded doc names declared s) : Layout.Placed declared s.structs := h.resolved.placed

theorem names_inRange (h : Loaded doc names declared s) : names.InRange s.enums.length s.structs.length :=
  h.resolved.names_inRange

theorem enum_resolved (h : Loaded doc names declared s) {e : EnumDef} (he : e ∈ s.enums) : e.Resolved s.structs.length :=
  h.resolved.enum_resolved he

/-- The fields of a struct or table of the schema are declared fields. -/
theorem declared_fields (h : Loaded doc names declared s) {d : StructDef} (hd : d ∈ s.structs) :
    Declared s.enums s.structs.length d.fields :=
  h.resolved.declared_fields hd

theorem root_lt (h : Loaded doc names declared s) {i : Nat} (hi : s.root = some i) : i < s.structs.length :=
  Resolve.root_lt h.names_inRange h.root i hi

end Loaded

/-- A document with every kind of definition: an enum, a union of a table and a string, structs inside structs and arrays, and a
table that holds a buffer of its own kind. -/
def sampleDoc : SchemaDoc where
  enums := [
    { name := "Color", scope := "game", underlying := some "ubyte", values := [{ name := "Red" }, { name := "Blue" }] },
    { name := "Gear", scope := "game", isUnion := true,
      values := [{ name := "Monster" }, { name := "Note", type := some "string" }] }]
  structs := [
    { name := "Outer", scope := "game", fixed := true, attributes := [("force_align", "16")],
      fields := [{ name := "tag", type := "Color" }, { name := "pos", type := "Inner" }, { name := "grid", type := "[Inner:2]" },
        { name := "xs", type := "[short:3]" }] },
    { name := "Inner", scope := "game", fixed := true,
      fields := [{ name := "a", type := "byte" }, { name := "b", type := "double" }] },
    { name := "Monster", scope := "game",
      fields := [{ name := "where", type := "Outer" }, { name := "gear", type := "Gear" }, { name := "bag", type := "[Gear]" },
        { name := "color", type := "Color", default := some (.string "Blue") },
        { name := "raw", type := "[ubyte]", nested := some "Monster" }] }]
  rootType := some "Monster"

/-- What can be seen of the schema of a document by loading it. -/
theorem Schema.exists_ofDocument (doc : SchemaDoc) {α : Type} [DecidableEq α] (look : Schema → α) (seen : α)
    (h : (match Schema.ofDocument doc with
      | .ok s => decide (look s = seen)
      | .error _ => false) = true) : ∃ s, Schema.ofDocument doc = .ok s ∧ look s = seen := by
  cases hs : Schema.ofDocument doc with
  | ok s =>
    rw [hs] at h
    exact ⟨s, rfl, of_decide_eq_true h⟩
  | error e =>
    rw [hs] at h
    nomatch h

end FlatSchema

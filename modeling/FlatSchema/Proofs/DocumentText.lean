import FlatSchema.Document.Printer
import FlatSchema.Document.Reader
import FlatSchema.Proofs.Int64
import FlatSchema.Proofs.JsonRecords

/-!
# Documents and their texts

A document that was read has attributes in order, and defaults that nest not too deep and have no key twice
(`SchemaDoc.Readable`). Such a document is got back from the text that is written of it, in which every record is an object with all
its members, if the numbers in its defaults are integers (`SchemaDoc.read?_text`).
-/

namespace FlatSchema

open Json

/-! ## Attributes -/

namespace Attributes

/-- The keys ascend. -/
def Sorted (a : Attributes) : Prop := a.Pairwise fun m m' => m.1 < m'.1

instance (a : Attributes) : Decidable a.Sorted := inferInstanceAs (Decidable (List.Pairwise _ _))

/-- A key is there after it was set, beside those that were. -/
theorem mem_insert {key value : String} {a : Attributes} {m : String × String} (h : m ∈ insert key value a) :
    m = (key, value) ∨ m ∈ a := by
  induction a with
  | nil => exact .inl (List.mem_singleton.1 h)
  | cons first rest ih =>
    obtain ⟨k, v⟩ := first
    rw [insert] at h
    split at h
    · exact List.mem_cons.1 h
    · split at h
      · exact (List.mem_cons.1 h).imp_right (List.mem_cons_of_mem _)
      · rcases List.mem_cons.1 h with rfl | h
        · exact .inr List.mem_cons_self
        · exact (ih h).imp_right (List.mem_cons_of_mem _)

/-- Attributes stay sorted. -/
theorem insert_sorted {a : Attributes} (h : a.Sorted) (key value : String) : (insert key value a).Sorted := by
  induction a with
  | nil => exact List.pairwise_singleton ..
  | cons first rest ih =>
    obtain ⟨k, v⟩ := first
    obtain ⟨hfirst, hrest⟩ := List.pairwise_cons.1 h
    rw [insert]
    split
    next hlt =>
      refine List.pairwise_cons.2 ⟨?_, h⟩
      intro m hm
      rcases List.mem_cons.1 hm with rfl | hm
      · exact hlt
      · exact String.lt_trans hlt (hfirst m hm)
    next hle =>
      split
      next heq => exact List.pairwise_cons.2 ⟨fun m hm => heq ▸ hfirst m hm, hrest⟩
      next hne =>
        have hlt : k < key := by
          refine Decidable.byContradiction fun hge => hne ?_
          exact String.le_antisymm (String.not_lt.1 hge) (String.not_lt.1 hle)
        refine List.pairwise_cons.2 ⟨?_, ih hrest⟩
        intro m hm
        rcases mem_insert hm with rfl | hm
        · exact hlt
        · exact hfirst m hm

/-- A key behind all others goes to the end. -/
theorem insert_of_forall_lt {key : String} {a : Attributes} (h : ∀ m ∈ a, m.1 < key) (value : String) :
    insert key value a = a ++ [(key, value)] := by
  induction a with
  | nil => rfl
  | cons first rest ih =>
    obtain ⟨k, v⟩ := first
    have hlt : k < key := h (k, v) List.mem_cons_self
    have hne : key ≠ k := fun heq => String.lt_irrefl k (heq ▸ hlt)
    rw [insert, if_neg (String.lt_asymm hlt), if_neg hne, ih fun m hm => h m (List.mem_cons_of_mem _ hm), List.cons_append]

/-- Attributes that are read one after the other stay sorted. -/
theorem foldlM_insert_sorted {ms : List (String × Json)} : ∀ {a b : Attributes}, a.Sorted →
    ms.foldlM (fun a m => (string? m.2).map fun v => insert m.1 v a) a = some b → b.Sorted := by
  induction ms with
  | nil =>
    intro a b ha h
    cases h
    exact ha
  | cons m ms ih =>
    intro a b ha h
    rw [List.foldlM_cons] at h
    obtain ⟨a', ha', h⟩ := Option.bind_eq_some_iff.1 h
    obtain ⟨v, _, rfl⟩ := Option.map_eq_some_iff.1 ha'
    exact ih (insert_sorted ha m.1 v) h

/-- Attributes that are read are sorted. -/
theorem ofJson?_sorted {j : Json} {a : Attributes} (h : ofJson? j = some a) : a.Sorted := by
  cases j with
  | object ms => exact foldlM_insert_sorted .nil h
  | null | bool | number | string | array => cases h

/-- Sorted attributes are put behind each other. -/
theorem foldlM_insert_of_sorted {rest : Attributes} : ∀ done : Attributes, Sorted (done ++ rest) →
    (rest.map fun m => (m.1, Json.string m.2)).foldlM
      (fun a m => (string? m.2).map fun v => insert m.1 v a) done = some (done ++ rest) := by
  induction rest with
  | nil =>
    intro done _
    rw [List.append_nil]
    rfl
  | cons m rest ih =>
    intro done h
    have hlast : ∀ w ∈ done, w.1 < m.1 := fun w hw => (List.pairwise_append.1 h).2.2 w hw m List.mem_cons_self
    rw [List.append_cons] at h ⊢
    rw [List.map_cons, List.foldlM_cons, string?, Option.map_some, insert_of_forall_lt hlast]
    exact ih _ h

theorem ofJson?_toJson {a : Attributes} (h : a.Sorted) : ofJson? a.toJson = some a :=
  foldlM_insert_of_sorted [] h

theorem sorted_of_defaulted {member : Option Json} {a : Attributes} (h : defaulted [] ofJson? member = some a) : a.Sorted := by
  cases member with
  | none =>
    cases h
    exact .nil
  | some j => exact ofJson?_sorted h

/-- Attributes are written one level deep. -/
theorem shaped_toJson (a : Attributes) {n : Nat} : Shaped (fun _ _ => True) (n + 1) a.toJson := by
  refine .object (fun _ _ => trivial) ?_
  simp only [List.forall_mem_map]
  exact fun m _ => .string m.2

end Attributes

/-! ## Members of records -/

theorem Json.string?_ofStrings (lines : List String) : list? string? (Json.ofStrings lines) = some lines :=
  list?_map fun _ _ => rfl

/-- An optional value is read from what is written of it, unless what is written is null. -/
theorem Json.optional_ofOption {α : Type} {read : Json → Option α} {write : α → Json} {o : Option α}
    (h : ∀ a, o = some a → write a ≠ .null ∧ read (write a) = some a) :
    optional read (some (Json.ofOption write o)) = some o := by
  cases o with
  | none => rfl
  | some a =>
    obtain ⟨hnull, hread⟩ := h a rfl
    rw [Json.ofOption, optional, hread]
    · rfl
    · exact fun heq => hnull heq

theorem Json.optional_string (o : Option String) : optional string? (some (Json.ofOption .string o)) = some o :=
  optional_ofOption fun _ _ => ⟨Json.noConfusion, rfl⟩

/-- A number of 64 bits is read back. -/
theorem Json.int64?_toInt (v : Int64) : int64? (.number (.int v.toInt)) = some v :=
  (if_pos (isInt64_toInt v.toBitVec)).trans (congrArg some v.ofInt_toInt)

/-- A number of 64 bits is read as an integer. -/
theorem inIntegerRange_of_isInt64 {v : Int} (h : IsInt64 v) : Number.inIntegerRange v = true := by
  have hless : Int.pow 2 63 < Int.pow 2 64 := by decide
  simp only [Number.inIntegerRange, Bool.and_eq_true, decide_eq_true_eq]
  exact ⟨h.1, Int.lt_trans h.2 hless⟩

/-- A record that is written as an object is nested one deeper than its members. -/
theorem Json.shaped_record {n : Nat} {names : List String} {values : List Json}
    (h : ∀ v ∈ values, Shaped (fun _ _ => True) n v) : Shaped (fun _ _ => True) (n + 1) (.object (names.zip values)) :=
  .object (fun _ _ => trivial) fun m hm => h m.2 (List.of_mem_zip hm).2

/-- An optional value has the shape of the value. -/
theorem Json.shaped_ofOption {α : Type} {n : Nat} {write : α → Json} {o : Option α}
    (h : ∀ a, o = some a → Shaped (fun _ _ => True) n (write a)) : Shaped (fun _ _ => True) n (Json.ofOption write o) := by
  cases o with
  | none => exact .null
  | some a => exact h a rfl

/-- A list is one level deeper than its items. -/
theorem Json.shaped_list {α : Type} {n : Nat} {write : α → Json} {xs : List α}
    (h : ∀ x ∈ xs, Shaped (fun _ _ => True) n (write x)) : Shaped (fun _ _ => True) (n + 1) (.array (xs.map write)) :=
  .array (List.forall_mem_map.2 h)

theorem Json.shaped_ofStrings {n : Nat} (lines : List String) : Shaped (fun _ _ => True) (n + 1) (Json.ofStrings lines) :=
  shaped_list fun t _ => .string t

/-! ## Members of enums -/

namespace MemberDoc

/-- A member is read from a record of four members. -/
theorem ofJson?_eq_some {j : Json} {m : MemberDoc} : ofJson? j = some m ↔
    ∃ name value type doc, record? members j = some [name, value, type, doc] ∧
      required string? name = some m.name ∧ optional int64? value = some m.value ∧
      optional string? type = some m.type ∧ defaulted [] (list? string?) doc = some m.doc := by
  unfold ofJson?
  constructor
  · intro h
    obtain ⟨fields, hfields, h⟩ := Option.bind_eq_some_iff.1 h
    split at h
    next name value type doc =>
      simp only [Option.bind_eq_bind, Option.bind_eq_some_iff, Option.pure_def, Option.some.injEq] at h
      obtain ⟨_, hname, _, hvalue, _, htype, _, hdoc, rfl⟩ := h
      exact ⟨name, value, type, doc, hfields, hname, hvalue, htype, hdoc⟩
    next => cases h
  · rintro ⟨name, value, type, doc, hfields, hname, hvalue, htype, hdoc⟩
    simp [hfields, hname, hvalue, htype, hdoc]

/-- A member is read back. -/
theorem ofJson?_toJson (m : MemberDoc) : ofJson? m.toJson = some m := by
  refine ofJson?_eq_some.2 ⟨_, _, _, _, record?_zip rfl (by decide), rfl, ?_, optional_string m.type, string?_ofStrings m.doc⟩
  exact optional_ofOption fun v _ => ⟨Json.noConfusion, int64?_toInt v⟩

/-- A member is written two levels deep. -/
theorem shaped_toJson (m : MemberDoc) (n : Nat) : Shaped (fun _ _ => True) (n + 2) m.toJson := by
  refine shaped_record ?_
  simp only [List.forall_mem_cons, List.not_mem_nil, false_imp_iff, implies_true, and_true]
  exact ⟨.string _, shaped_ofOption fun v _ => .int (inIntegerRange_of_isInt64 (isInt64_toInt v.toBitVec)), shaped_ofOption fun t _ => .string t,
    shaped_ofStrings m.doc⟩

end MemberDoc

/-! ## Enums -/

namespace EnumDoc

/-- An enum is read from a record of eight members. -/
theorem ofJson?_eq_some {j : Json} {e : EnumDoc} : ofJson? j = some e ↔
    ∃ name scope underlying isUnion values attributes doc generated,
      record? members j = some [name, scope, underlying, isUnion, values, attributes, doc, generated] ∧
      required string? name = some e.name ∧ defaulted "" string? scope = some e.scope ∧
      optional string? underlying = some e.underlying ∧ defaulted false bool? isUnion = some e.isUnion ∧
      defaulted [] (list? MemberDoc.ofJson?) values = some e.values ∧
      defaulted [] Attributes.ofJson? attributes = some e.attributes ∧
      defaulted [] (list? string?) doc = some e.doc ∧ defaulted false bool? generated = some e.generated := by
  unfold ofJson?
  constructor
  · intro h
    obtain ⟨fields, hfields, h⟩ := Option.bind_eq_some_iff.1 h
    split at h
    next name scope underlying isUnion values attributes doc generated =>
      simp only [Option.bind_eq_bind, Option.bind_eq_some_iff, Option.pure_def, Option.some.injEq] at h
      obtain ⟨_, hname, _, hscope, _, hunderlying, _, hunion, _, hvalues, _, hattributes, _, hdoc, _, hgenerated, rfl⟩ := h
      exact ⟨name, scope, underlying, isUnion, values, attributes, doc, generated, hfields, hname, hscope, hunderlying, hunion,
        hvalues, hattributes, hdoc, hgenerated⟩
    next => cases h
  · rintro ⟨name, scope, underlying, isUnion, values, attributes, doc, generated, hfields, hname, hscope, hunderlying, hunion,
      hvalues, hattributes, hdoc, hgenerated⟩
    simp [hfields, hname, hscope, hunderlying, hunion, hvalues, hattributes, hdoc, hgenerated]

/-- The attributes of an enum that is read are sorted. -/
theorem sorted_of_ofJson? {j : Json} {e : EnumDoc} (h : ofJson? j = some e) : e.attributes.Sorted := by
  obtain ⟨_, _, _, _, _, _, _, _, _, _, _, _, _, _, hattributes, _, _⟩ := ofJson?_eq_some.1 h
  exact Attributes.sorted_of_defaulted hattributes

/-- An enum is read back. -/
theorem ofJson?_toJson {e : EnumDoc} (h : e.attributes.Sorted) : ofJson? e.toJson = some e := by
  refine ofJson?_eq_some.2 ⟨_, _, _, _, _, _, _, _, record?_zip rfl (by decide), rfl, rfl, optional_string e.underlying, rfl,
    ?_, Attributes.ofJson?_toJson h, string?_ofStrings e.doc, rfl⟩
  exact list?_map fun m _ => m.ofJson?_toJson

/-- An enum is written four levels deep. -/
theorem shaped_toJson (e : EnumDoc) (n : Nat) : Shaped (fun _ _ => True) (n + 4) e.toJson := by
  refine shaped_record ?_
  simp only [List.forall_mem_cons, List.not_mem_nil, false_imp_iff, implies_true, and_true]
  exact ⟨.string _, .string _, shaped_ofOption fun t _ => .string t, .bool _,
    shaped_list fun m _ => m.shaped_toJson n, Attributes.shaped_toJson _, shaped_ofStrings _, .bool _⟩

end EnumDoc

/-! ## Fields -/

namespace FieldDoc

/-- The attributes of a field are in order. Its default is not null, nests at most so deep and has no key twice. -/
structure Readable (n : Nat) (f : FieldDoc) : Prop where
  default : ∀ j, f.default = some j → j ≠ .null ∧ Tidy n j
  attributes : f.attributes.Sorted

/-- All numbers in the default of a field are integers in range. -/
def Integral (f : FieldDoc) : Prop := f.default.all Json.integral = true

instance (f : FieldDoc) : Decidable f.Integral := inferInstanceAs (Decidable (_ = _))

/-- A field is read from a record of nine members. Its default is kept as it is, with members of one name merged. -/
theorem ofJson?_eq_some {j : Json} {f : FieldDoc} : ofJson? j = some f ↔
    ∃ name type default deprecated required key nested attributes doc,
      record? members j = some [name, type, default, deprecated, required, key, nested, attributes, doc] ∧
      Json.required string? name = some f.name ∧ Json.required string? type = some f.type ∧
      optional (fun v => some (merged v)) default = some f.default ∧
      defaulted false bool? deprecated = some f.deprecated ∧ defaulted false bool? required = some f.required ∧
      defaulted false bool? key = some f.key ∧ optional string? nested = some f.nested ∧
      defaulted [] Attributes.ofJson? attributes = some f.attributes ∧ defaulted [] (list? string?) doc = some f.doc := by
  unfold ofJson?
  constructor
  · intro h
    obtain ⟨fields, hfields, h⟩ := Option.bind_eq_some_iff.1 h
    split at h
    next name type default deprecated required key nested attributes doc =>
      simp only [Option.bind_eq_bind, Option.bind_eq_some_iff, Option.pure_def, Option.some.injEq] at h
      obtain ⟨_, hname, _, htype, _, hdefault, _, hdeprecated, _, hrequired, _, hkey, _, hnested, _, hattributes, _, hdoc, rfl⟩ := h
      exact ⟨name, type, default, deprecated, required, key, nested, attributes, doc, hfields, hname, htype, hdefault,
        hdeprecated, hrequired, hkey, hnested, hattributes, hdoc⟩
    next => cases h
  · rintro ⟨name, type, default, deprecated, required, key, nested, attributes, doc, hfields, hname, htype, hdefault, hdeprecated,
      hrequired, hkey, hnested, hattributes, hdoc⟩
    simp [hfields, hname, htype, hdefault, hdeprecated, hrequired, hkey, hnested, hattributes, hdoc]

/-- A field that is read is readable. -/
theorem readable_of_ofJson? {n : Nat} {j : Json} {f : FieldDoc} (hj : Nested (n + 1) j) (h : ofJson? j = some f) :
    f.Readable n := by
  obtain ⟨_, _, default, _, _, _, _, attributes, _, hfields, _, _, hdefault, _, _, _, _, hattributes, _⟩ := ofJson?_eq_some.1 h
  refine ⟨fun d hd => ?_, Attributes.sorted_of_defaulted hattributes⟩
  rw [hd] at hdefault
  obtain ⟨v, hv, hnull, hmerged⟩ := optional_eq_some hdefault
  cases hmerged
  exact ⟨merged_ne_null hnull, (record?_nested hj hfields v (by simp [hv])).tidy_merged⟩

/-- A readable field is read back. -/
theorem ofJson?_toJson {n : Nat} {f : FieldDoc} (h : f.Readable n) : ofJson? f.toJson = some f := by
  have hdefault : optional (fun v => some (merged v)) (some (f.default.getD .null)) = some f.default := by
    have hwritten : f.default.getD .null = Json.ofOption id f.default := by
      cases f.default <;> rfl
    rw [hwritten]
    exact optional_ofOption fun j hj => ⟨(h.default j hj).1, congrArg some (h.default j hj).2.merged_eq⟩
  exact ofJson?_eq_some.2 ⟨_, _, _, _, _, _, _, _, _, record?_zip rfl (by decide), rfl, rfl, hdefault, rfl, rfl, rfl,
    optional_string f.nested, Attributes.ofJson?_toJson h.attributes, string?_ofStrings f.doc⟩

/-- A field is one level deeper than its default. -/
theorem shaped_toJson {n : Nat} {f : FieldDoc} (h : f.Readable (n + 1)) (hint : f.Integral) :
    Shaped (fun _ _ => True) (n + 2) f.toJson := by
  have hdefault : Shaped (fun _ _ => True) (n + 1) (f.default.getD .null) := by
    cases hd : f.default with
    | none => exact .null
    | some j =>
      rw [Integral, hd] at hint
      exact (h.default j hd).2.shaped hint
  refine shaped_record ?_
  simp only [List.forall_mem_cons, List.not_mem_nil, false_imp_iff, implies_true, and_true]
  exact ⟨.string _, .string _, hdefault, .bool _, .bool _, .bool _, shaped_ofOption fun t _ => .string t,
    Attributes.shaped_toJson _, shaped_ofStrings _⟩

end FieldDoc

/-! ## Structs and tables -/

namespace StructDoc

/-- The attributes of a struct or table are in order, and its fields are as they are read. -/
structure Readable (n : Nat) (s : StructDoc) : Prop where
  fields : ∀ f ∈ s.fields, f.Readable n
  attributes : s.attributes.Sorted

/-- A struct is read from a record of seven members. -/
theorem ofJson?_eq_some {j : Json} {s : StructDoc} : ofJson? j = some s ↔
    ∃ name scope fixed fields attributes doc generated,
      record? members j = some [name, scope, fixed, fields, attributes, doc, generated] ∧
      required string? name = some s.name ∧ defaulted "" string? scope = some s.scope ∧
      defaulted false bool? fixed = some s.fixed ∧ defaulted [] (list? FieldDoc.ofJson?) fields = some s.fields ∧
      defaulted [] Attributes.ofJson? attributes = some s.attributes ∧
      defaulted [] (list? string?) doc = some s.doc ∧ defaulted false bool? generated = some s.generated := by
  unfold ofJson?
  constructor
  · intro h
    obtain ⟨members, hmembers, h⟩ := Option.bind_eq_some_iff.1 h
    split at h
    next name scope fixed fields attributes doc generated =>
      simp only [Option.bind_eq_bind, Option.bind_eq_some_iff, Option.pure_def, Option.some.injEq] at h
      obtain ⟨_, hname, _, hscope, _, hfixed, _, hfields, _, hattributes, _, hdoc, _, hgenerated, rfl⟩ := h
      exact ⟨name, scope, fixed, fields, attributes, doc, generated, hmembers, hname, hscope, hfixed, hfields, hattributes, hdoc,
        hgenerated⟩
    next => cases h
  · rintro ⟨name, scope, fixed, fields, attributes, doc, generated, hmembers, hname, hscope, hfixed, hfields, hattributes, hdoc,
      hgenerated⟩
    simp [hmembers, hname, hscope, hfixed, hfields, hattributes, hdoc, hgenerated]

/-- A struct that is read is readable. -/
theorem readable_of_ofJson? {n : Nat} {j : Json} {s : StructDoc} (hj : Nested (n + 3) j) (h : ofJson? j = some s) :
    s.Readable n := by
  obtain ⟨_, _, _, fields, attributes, _, _, hmembers, _, _, _, hfields, hattributes, _, _⟩ := ofJson?_eq_some.1 h
  refine ⟨fun f hf => ?_, Attributes.sorted_of_defaulted hattributes⟩
  obtain ⟨v, hv, hread⟩ := mem_of_list (fun v hv => record?_nested hj hmembers v (by simp [hv])) hfields f hf
  exact FieldDoc.readable_of_ofJson? hv hread

/-- A readable struct is read back. -/
theorem ofJson?_toJson {n : Nat} {s : StructDoc} (h : s.Readable n) : ofJson? s.toJson = some s := by
  refine ofJson?_eq_some.2 ⟨_, _, _, _, _, _, _, record?_zip rfl (by decide), rfl, rfl, rfl, ?_,
    Attributes.ofJson?_toJson h.attributes, string?_ofStrings s.doc, rfl⟩
  exact list?_map fun f hf => FieldDoc.ofJson?_toJson (h.fields f hf)

/-- A struct is three levels deeper than the defaults of its fields. -/
theorem shaped_toJson {n : Nat} {s : StructDoc} (h : s.Readable (n + 1)) (hint : ∀ f ∈ s.fields, f.Integral) :
    Shaped (fun _ _ => True) (n + 4) s.toJson := by
  refine shaped_record ?_
  simp only [List.forall_mem_cons, List.not_mem_nil, false_imp_iff, implies_true, and_true]
  exact ⟨.string _, .string _, .bool _, shaped_list fun f hf => FieldDoc.shaped_toJson (h.fields f hf) (hint f hf),
    Attributes.shaped_toJson _, shaped_ofStrings _, .bool _⟩

end StructDoc

/-! ## Documents -/

namespace SchemaDoc

/-- A document is as it is read: its attributes are in order, and defaults nest at most so deep. -/
structure Readable (n : Nat) (d : SchemaDoc) : Prop where
  enums : ∀ e ∈ d.enums, e.attributes.Sorted
  structs : ∀ s ∈ d.structs, s.Readable n

/-- All numbers in the defaults of a document are integers in range. -/
def Integral (d : SchemaDoc) : Prop := ∀ s ∈ d.structs, ∀ f ∈ s.fields, f.Integral

instance (d : SchemaDoc) : Decidable d.Integral := inferInstanceAs (Decidable (∀ s ∈ d.structs, _))

/-- A document is read from a record of six members. -/
theorem ofJson?_eq_some {j : Json} {d : SchemaDoc} : ofJson? j = some d ↔
    ∃ fileName enums structs rootType fileIdentifier fileExtension,
      record? members j = some [fileName, enums, structs, rootType, fileIdentifier, fileExtension] ∧
      defaulted "" string? fileName = some d.fileName ∧ defaulted [] (list? EnumDoc.ofJson?) enums = some d.enums ∧
      defaulted [] (list? StructDoc.ofJson?) structs = some d.structs ∧ optional string? rootType = some d.rootType ∧
      optional string? fileIdentifier = some d.fileIdentifier ∧ optional string? fileExtension = some d.fileExtension := by
  unfold ofJson?
  constructor
  · intro h
    obtain ⟨fields, hfields, h⟩ := Option.bind_eq_some_iff.1 h
    split at h
    next fileName enums structs rootType fileIdentifier fileExtension =>
      simp only [Option.bind_eq_bind, Option.bind_eq_some_iff, Option.pure_def, Option.some.injEq] at h
      obtain ⟨_, hname, _, henums, _, hstructs, _, hroot, _, hidentifier, _, hextension, rfl⟩ := h
      exact ⟨fileName, enums, structs, rootType, fileIdentifier, fileExtension, hfields, hname, henums, hstructs, hroot,
        hidentifier, hextension⟩
    next => cases h
  · rintro ⟨fileName, enums, structs, rootType, fileIdentifier, fileExtension, hfields, hname, henums, hstructs, hroot,
      hidentifier, hextension⟩
    simp [hfields, hname, henums, hstructs, hroot, hidentifier, hextension]

/-- A document that is read is readable. -/
theorem readable_of_ofJson? {n : Nat} {j : Json} {d : SchemaDoc} (hj : Nested (n + 5) j) (h : ofJson? j = some d) :
    d.Readable n := by
  obtain ⟨_, enums, structs, _, _, _, hfields, _, henums, hstructs, _⟩ := ofJson?_eq_some.1 h
  refine ⟨fun e he => ?_, fun s hs => ?_⟩
  · obtain ⟨v, _, hread⟩ := mem_of_list (fun v hv => record?_nested hj hfields v (by simp [hv])) henums e he
    exact EnumDoc.sorted_of_ofJson? hread
  · obtain ⟨v, hv, hread⟩ := mem_of_list (fun v hv => record?_nested hj hfields v (by simp [hv])) hstructs s hs
    exact StructDoc.readable_of_ofJson? hv hread

/-- A readable document is read back from its value. -/
theorem ofJson?_toJson {n : Nat} {d : SchemaDoc} (h : d.Readable n) : ofJson? d.toJson = some d := by
  refine ofJson?_eq_some.2 ⟨_, _, _, _, _, _, record?_zip rfl (by decide), rfl, ?_, ?_, optional_string d.rootType,
    optional_string d.fileIdentifier, optional_string d.fileExtension⟩
  · exact list?_map fun e he => EnumDoc.ofJson?_toJson (h.enums e he)
  · exact list?_map fun s hs => StructDoc.ofJson?_toJson (h.structs s hs)

/-- A document is five levels deeper than the defaults of its fields. -/
theorem shaped_toJson {n : Nat} {d : SchemaDoc} (h : d.Readable (n + 1)) (hint : d.Integral) :
    Shaped (fun _ _ => True) (n + 6) d.toJson := by
  refine shaped_record ?_
  simp only [List.forall_mem_cons, List.not_mem_nil, false_imp_iff, implies_true, and_true]
  exact ⟨.string _, shaped_list fun e _ => e.shaped_toJson n,
    shaped_list fun s hs => StructDoc.shaped_toJson (h.structs s hs) (hint s hs),
    shaped_ofOption fun t _ => .string t, shaped_ofOption fun t _ => .string t, shaped_ofOption fun t _ => .string t⟩

/-- Between a document and the default of a field there are five records and lists. -/
theorem readable_of_read? {t : String} {d : SchemaDoc} (h : read? t = some d) : d.Readable 122 := by
  obtain ⟨j, hj, hd⟩ := Option.bind_eq_some_iff.1 h
  exact readable_of_ofJson? (read?_nested hj) hd

end SchemaDoc

/-- A document that was read is written as a record with all its members, the attributes in order. If the numbers in its defaults
are integers, it is got back from this text, in whatever forms its records were written before. So what is read from the text and
written again is the same text. -/
theorem SchemaDoc.read?_text {t : String} {d : SchemaDoc} (h : SchemaDoc.read? t = some d) (hint : d.Integral) :
    Json.read? d.text = some d.toJson ∧ SchemaDoc.read? d.text = some d ∧
      (SchemaDoc.read? d.text).map SchemaDoc.text = some d.text ∧
      (∀ e ∈ d.enums, e.attributes.Sorted) ∧
      ∀ s ∈ d.structs, s.attributes.Sorted ∧ ∀ f ∈ s.fields, f.attributes.Sorted := by
  have hreadable := SchemaDoc.readable_of_read? h
  have hjson : Json.read? d.text = some d.toJson := read?_compact (SchemaDoc.shaped_toJson (n := 121) hreadable hint)
  have hread : SchemaDoc.read? d.text = some d := by
    rw [SchemaDoc.read?, hjson, Option.bind_some, SchemaDoc.ofJson?_toJson hreadable]
  refine ⟨hjson, hread, by rw [hread, Option.map_some], hreadable.enums, fun s hs => ?_⟩
  have hs := hreadable.structs s hs
  exact ⟨hs.attributes, fun f hf => (hs.fields f hf).attributes⟩

/-- A text in which some records are arrays and some are objects. It has attributes out of order and keys twice. -/
def mixedText : String :=
  "[\"m\",[[\"E\",\"\",\"byte\",false,[[\"A\",-3],\x7b\"name\":\"B\"\x7d],\x7b\"z\":\"1\",\"b\":\"\",\"z\":\"2\"\x7d]]," ++
  " [\x7b\"fields\": [[\"x\",\"int\",\x7b\"k\":[],\"j\":7,\"k\":[null]\x7d]], \"name\": \"T\"\x7d]]"

theorem mixedText_again : ∃ d, SchemaDoc.read? mixedText = some d ∧ d.Integral ∧
    d.enums.map (·.attributes) = [[("b", ""), ("z", "2")]] ∧ SchemaDoc.read? d.text = some d := by
  have hlook : (SchemaDoc.read? mixedText).map (fun d => (d.enums.map (·.attributes), decide d.Integral)) =
      some ([[("b", ""), ("z", "2")]], true) := by decide +kernel
  obtain ⟨d, hd, hseen⟩ := Option.map_eq_some_iff.1 hlook
  obtain ⟨hattributes, hdecided⟩ := Prod.mk.inj hseen
  have hint : d.Integral := of_decide_eq_true hdecided
  exact ⟨d, hd, hint, hattributes, (SchemaDoc.read?_text hd hint).2.1⟩

end FlatSchema

import FlatSchema.Proofs.Emission
import FlatSchema.Proofs.EnumValues
import FlatSchema.Proofs.Rendering

/-!
# Columns of generated code

In Go the constants of an enum, the entries of its maps and the members of an object are aligned in columns. A column can be aligned
only up to a greatest width, and nothing bounds the length of a name. So a schema that a document gives is rendered for every
language and with all options, but it is printed exactly if the language is another one or the names are short enough
(`Schema.ofDocument_prints`). Which names are is said without the columns (`Go.Fits`).
-/

namespace FlatSchema

/-! ## Printing -/

namespace Target

variable {t : Target} {s : Schema} {options : Options}

/-- The columns of a definition can be aligned. -/
def Aligned (t : Target) (env : Env) (d : Definition) : Prop :=
  ∀ widths, t.columns env d = .ok widths → ∀ w ∈ widths, w ≤ maxColumn

/-- A rendered schema is printed as it is rendered if all columns can be aligned. Otherwise it is not printed. -/
theorem Total.print_eq (h : t.Total (t.env s options)) {files : List OutputFile} (hrender : t.render s options = .ok files) :
    ((∀ d ∈ s.definitions, t.Aligned (t.env s options) d) → t.print s options = .ok files) ∧
      ((¬∀ d ∈ s.definitions, t.Aligned (t.env s options) d) → t.print s options = .error .wideColumn) := by
  have hcolumns : Returns (s.definitions.mapM (t.columns (t.env s options))) :=
    .mapM fun d hd => h.columns d (Schema.definitions_within d hd)
  obtain ⟨widths, hwidths⟩ := hcolumns
  have haligned : (∀ d ∈ s.definitions, t.Aligned (t.env s options) d) ↔ widths.flatten.all (· ≤ maxColumn) = true := by
    simp only [List.all_eq_true, List.mem_flatten, decide_eq_true_eq]
    constructor
    · rintro haligned w ⟨ws, hws, hw⟩
      obtain ⟨d, hd, hcolumns⟩ := mapM_mem hwidths ws hws
      exact haligned d hd ws hcolumns w hw
    · intro hall d hd ws hcolumns w hw
      obtain ⟨ws', hws', hcolumns'⟩ := mapM_mem_of_mem hwidths d hd
      obtain rfl : ws = ws' := Except.ok.inj (hcolumns.symm.trans hcolumns')
      exact hall w ⟨ws, hws', hw⟩
  have hprint : t.print s options = if widths.flatten.all (· ≤ maxColumn) then .ok files else .error .wideColumn := by
    unfold print
    rw [hrender, hwidths]
    rfl
  rw [haligned, hprint]
  exact ⟨fun hall => if_pos hall, fun hall => if_neg hall⟩

end Target

/-! ## The columns of Go code -/

namespace Go

/-- The greatest size is bounded exactly if every size is. -/
theorem widest_le_iff {texts : List String} {n : Nat} : widest texts ≤ n ↔ ∀ t ∈ texts, t.utf8ByteSize ≤ n := by
  have hfold : ∀ (sizes : List Nat) (m : Nat), sizes.foldl max m ≤ n ↔ m ≤ n ∧ ∀ k ∈ sizes, k ≤ n := by
    intro sizes
    induction sizes with
    | nil => simp
    | cons k rest ih =>
      intro m
      rw [List.foldl_cons, ih, Nat.max_le, List.forall_mem_cons, and_assoc]
  rw [widest, hfold, List.forall_mem_map]
  exact and_iff_right (Nat.zero_le n)

/-- The names of a definition are short enough for its code: the constants of an enum with a colon behind them and its members in
quotes with a colon, or in the object API the members of a struct or table and their types. -/
def Fits (env : Env) : Definition → Prop
  | .enum _ e => ∀ v ∈ e.vals,
    (env.namer.enumVariant e.name v.name).utf8ByteSize + 1 ≤ 65535 ∧ v.name.utf8ByteSize + 3 ≤ 65535
  | .struct _ d => env.options.objectApi = true → ∀ f ∈ objectFields d,
    (env.namer.field f.name).utf8ByteSize ≤ 65535 ∧
      ∀ t, Site.objectType { toEnv := env, here := d.scope } f.type = .ok t → t.text.utf8ByteSize ≤ 65535

instance (env : Env) : DecidablePred (Fits env)
  | .enum _ _ => inferInstanceAs (Decidable (∀ v ∈ _, _))
  | .struct _ d => inferInstanceAs (Decidable (_ → ∀ f ∈ objectFields d, _ ∧ ∀ t, _ = Except.ok t → _))

/-- An enum has three columns, one of which is the constants and one the constants with a colon. -/
theorem aligned_enum_iff {o : Options} {env : Env} {i : Nat} {e : EnumDef} :
    (target o).Aligned env (.enum i e) ↔ Fits env (.enum i e) := by
  have hcolumns : (target o).Aligned env (.enum i e) ↔ constantWidth env e ≤ 65534 ∧ widest (e.vals.map (·.name)) ≤ 65532 := by
    have hwidths : (target o).columns env (.enum i e) = .ok [constantWidth env e, constantWidth env e + 1, keyWidth e + 1] := rfl
    simp only [Target.Aligned, Target.maxColumn, hwidths, Except.ok.injEq, forall_eq', List.forall_mem_cons, keyWidth,
      List.not_mem_nil, false_imp_iff, implies_true, and_true]
    omega
  rw [hcolumns, constantWidth, widest_le_iff, widest_le_iff, List.forall_mem_map, List.forall_mem_map]
  constructor
  · rintro ⟨hconstants, hkeys⟩ v hv
    exact ⟨Nat.succ_le_succ (hconstants v hv), Nat.add_le_add_right (hkeys v hv) 3⟩
  · intro hfits
    exact ⟨fun v hv => Nat.le_of_succ_le_succ (hfits v hv).1, fun v hv => Nat.le_of_add_le_add_right (hfits v hv).2⟩

/-- A struct or table has two columns, but only in the object API. -/
theorem aligned_struct_iff {o : Options} {env : Env} (hs : env.schema.Closed) {i : Nat} {d : StructDef} (hd : d ∈ env.schema.structs) :
    (target o).Aligned env (.struct i d) ↔ Fits env (.struct i d) := by
  have hrows : Returns (objectRows { toEnv := env, here := d.scope } d) := returns_objectRows hs hd
  obtain ⟨rows, hrows⟩ := hrows
  have hcolumns : (target o).columns env (.struct i d) =
      if env.options.objectApi then .ok [nameWidth rows, typeWidth rows] else .ok [] := by
    show (if env.options.objectApi then objectRows { toEnv := env, here := d.scope } d >>= _ else pure []) = _
    rw [hrows]
    rfl
  -- without objects no columns are aligned
  by_cases hobjects : env.options.objectApi = true
  · rw [if_pos hobjects] at hcolumns
    have haligned : (target o).Aligned env (.struct i d) ↔
        ∀ row ∈ rows, row.1.utf8ByteSize ≤ 65535 ∧ row.2.1.text.utf8ByteSize ≤ 65535 := by
      simp only [Target.Aligned, Target.maxColumn, hcolumns, Except.ok.injEq, forall_eq', List.forall_mem_cons, nameWidth, typeWidth,
        widest_le_iff, List.forall_mem_map, List.not_mem_nil, false_imp_iff, implies_true, and_true, ← forall_and]
    rw [haligned]
    constructor
    · intro hall _ f hf
      obtain ⟨row, hrow, hmade⟩ := mapM_mem_of_mem hrows f hf
      obtain ⟨t, ht, hmade⟩ := bind_eq_ok.1 hmade
      cases hmade
      refine ⟨(hall _ hrow).1, fun t' ht' => ?_⟩
      obtain rfl : t' = t := Except.ok.inj (ht'.symm.trans ht)
      exact (hall _ hrow).2
    · intro hfits row hrow
      obtain ⟨f, hf, hmade⟩ := mapM_mem hrows row hrow
      obtain ⟨t, ht, hmade⟩ := bind_eq_ok.1 hmade
      cases hmade
      obtain ⟨hname, htype⟩ := hfits hobjects f hf
      exact ⟨hname, htype t ht⟩
  · rw [if_neg hobjects] at hcolumns
    refine iff_of_true (fun widths hwidths w hw => ?_) fun hyes => absurd hyes hobjects
    rw [hcolumns] at hwidths
    cases hwidths
    cases hw

end Go

/-- Columns can be aligned in every language, but in Go only if the names are short enough. -/
theorem Language.aligned_iff (language : Language) (options : Options) {s : Schema} (hs : s.Closed) :
    (∀ d ∈ s.definitions, (language.target options).Aligned ((language.target options).env s options) d) ↔
      (language = .go → ∀ d ∈ s.definitions, Go.Fits ((Go.target options).env s options) d) := by
  by_cases hgo : language = .go
  · subst hgo
    have hfits : ∀ d ∈ s.definitions, (Go.target options).Aligned ((Go.target options).env s options) d ↔
        Go.Fits ((Go.target options).env s options) d := by
      intro d hd
      have hwithin := Schema.definitions_within d hd
      cases d with
      | enum i e => exact Go.aligned_enum_iff
      | struct i d => exact Go.aligned_struct_iff hs hwithin
    exact ⟨fun h _ d hd => (hfits d hd).1 (h d hd), fun h d hd => (hfits d hd).2 (h rfl d hd)⟩
  · refine iff_of_true (fun d _ widths hwidths w hw => ?_) fun hyes => absurd hyes hgo
    have hcolumns : (language.target options).columns ((language.target options).env s options) d = .ok [] := by
      cases language <;> first | rfl | exact absurd rfl hgo
    rw [hcolumns] at hwidths
    cases hwidths
    cases hw

/-- Every base type has a place in the canonical order, by which tables over base types are read. -/
theorem BaseType.getElem?_index (b : BaseType) : BaseType.all[b.index]? = some b := by
  cases b <;> rfl

/-- A schema that a document gives is accepted again and refers only to what it has, and the parameters of its structs have a
field each. So every language answers whatever it is asked about the schema, and renders it with all options. What is rendered is
also printed, unless the language is Go and the names of a definition are too long for its columns: then nothing is printed. -/
theorem Schema.ofDocument_prints {doc : SchemaDoc} {s : Schema} (h : Schema.ofDocument doc = .ok s) :
    s.validate = .ok () ∧ s.Closed ∧ (∀ b : BaseType, BaseType.all[b.index]? = some b) ∧
    (∀ d ∈ s.structs, ∀ p ∈ (StructPlan.of s d).params, p.Sound s) ∧
    ∀ (language : Language) (options : Options),
      (language.target options).Total ((language.target options).env s options) ∧
      (language.target options).Renders s options ∧
      let fits := language = .go → ∀ d ∈ s.definitions, Go.Fits ((Go.target options).env s options) d
      (fits → (language.target options).print s options = (language.target options).render s options) ∧
      (¬fits → (language.target options).print s options = .error .wideColumn) := by
  obtain ⟨names, declared, h⟩ := Schema.ofDocument_loaded h
  have hclosed := h.closed
  refine ⟨h.valid, hclosed, BaseType.getElem?_index, fun d hd => StructPlan.of_sound hclosed hd, ?_⟩
  intro language options
  have htotal : (language.target options).Total ((language.target options).env s options) :=
    language.target_total options hclosed
  have hrenders := htotal.renders h.valid
  obtain ⟨files, hfiles, _⟩ := id hrenders
  obtain ⟨hprinted, hrefused⟩ := htotal.print_eq hfiles
  rw [language.aligned_iff options hclosed] at hprinted hrefused
  exact ⟨htotal, hrenders, fun hfits => (hprinted hfits).trans hfiles.symm, hrefused⟩

theorem sampleDoc_prints : ∃ s, Schema.ofDocument sampleDoc = .ok s ∧
    s.definitions.map (·.name) = ["Color", "Gear", "Outer", "Inner", "Monster"] ∧
    (∀ d ∈ s.definitions, Go.Fits ((Go.target { objectApi := true }).env s { objectApi := true }) d) ∧
    ∀ language : Language, ∃ files, (language.target { objectApi := true }).print s { objectApi := true } = .ok files := by
  obtain ⟨s, hs, hlook⟩ := Schema.exists_ofDocument sampleDoc
    (fun s => (s.definitions.map (·.name), decide (∀ d ∈ s.definitions,
      Go.Fits ((Go.target { objectApi := true }).env s { objectApi := true }) d)))
    (["Color", "Gear", "Outer", "Inner", "Monster"], true) (by decide +kernel)
  obtain ⟨hnames, hlook⟩ := Prod.mk.inj hlook
  have hfits := of_decide_eq_true hlook
  refine ⟨s, hs, hnames, hfits, fun language => ?_⟩
  obtain ⟨_, ⟨files, hfiles, _⟩, hprints, _⟩ := (Schema.ofDocument_prints hs).2.2.2.2 language { objectApi := true }
  exact ⟨files, (hprints fun _ => hfits).trans hfiles⟩

/-! ## A name that is too long -/

/-- A document with an enum of one member. -/
def singleDoc (name : String) : SchemaDoc where
  enums := [{ name := "E", values := [{ name }] }]

/-- The enum of the document. -/
def singleEnum (name : String) : EnumDef where
  name := "E"
  underlying := .plain .int
  vals := [{ name, value := 0 }]

/-- The member may have any identifier for a name. -/
theorem singleDoc_loaded {name : String} (h : isIdentifier name = true) :
    Schema.ofDocument (singleDoc name) = .ok { fileName := "", enums := [singleEnum name] } := by
  have hname : Resolve.memberName { name } = name := Resolve.memberName_of_isIdentifier h
  have henum : ∀ names, Resolve.enum names { name := "E", values := [{ name }] } = .ok (singleEnum name) := by
    intro names
    have hlast : lastInt64 ∉ MemberDoc.numbers 0 [({ name } : MemberDoc)] := by
      have hnumbers : MemberDoc.numbers 0 [({ name } : MemberDoc)] = [0] := rfl
      rw [hnumbers]
      decide
    refine (Resolve.enum_eq rfl rfl rfl (by simp)).trans ((if_neg hlast).trans ?_)
    rw [singleEnum, Resolve.numbered]
    simp only [List.zip, MemberDoc.numbers, List.zipWith, List.map, hname]
    rfl
  refine Schema.ofDocument_eq_ok.2 ⟨⟨[("E", .enum 0)], [], ?_⟩, rfl, rfl, rfl⟩
  refine ⟨rfl, ?_, rfl, rfl, rfl, Schema.validate_eq_ok.2 ⟨?_, ?_, ?_, rfl⟩⟩
  · show List.mapM _ [_] = _
    rw [List.mapM_cons, henum]
    rfl
  · refine Validity.checkNames_eq_ok.2 ⟨?_, ?_, ?_, ?_⟩
    · simp only [List.forall_mem_singleton]
      exact ⟨show isIdentifier "E" = true by decide, fun c hc => absurd hc List.not_mem_nil⟩
    · exact fun d hd => absurd hd List.not_mem_nil
    · simp only [List.forall_mem_singleton, singleEnum]
      exact h
    · exact fun d hd => absurd hd List.not_mem_nil
  · simp only [List.forall_mem_singleton]
    refine Validity.checkEnum_of_admits rfl rfl rfl (by simp [singleEnum]) ?_
    simp only [singleEnum, List.forall_mem_singleton]
    decide
  · exact fun d hd => absurd hd List.not_mem_nil

/-- A name of some letters. -/
def letters (n : Nat) : String := String.ofList (List.replicate n 'a')

theorem utf8ByteSize_letters (n : Nat) : (letters n).utf8ByteSize = n := by
  unfold letters
  induction n with
  | zero => rfl
  | succ n ih =>
    rw [List.replicate_succ, String.ofList_cons, String.utf8ByteSize_append, ih, String.utf8ByteSize_singleton, Nat.add_comm]
    rfl

theorem isIdentifier_letters {n : Nat} (h : n ≠ 0) : isIdentifier (letters n) = true := by
  obtain ⟨m, rfl⟩ := Nat.exists_eq_succ_of_ne_zero h
  have hall : (List.replicate m 'a').all (fun d => d.isAlphanum || d == '_') = true := by
    rw [List.all_eq_true]
    intro c hc
    rw [List.eq_of_mem_replicate hc]
    decide
  rw [isIdentifier, letters, String.toList_ofList, List.replicate_succ]
  exact hall

/-- If the member has 65533 letters or more, the enum is accepted and rendered, but it is not printed. -/
theorem singleDoc_not_printed {name : String} (h : isIdentifier name = true) (hsize : 65533 ≤ name.utf8ByteSize) :
    ∃ s, Schema.ofDocument (singleDoc name) = .ok s ∧
      (∃ files, (Go.target {}).render s {} = .ok files) ∧ (Go.target {}).print s {} = .error .wideColumn := by
  have hs := singleDoc_loaded h
  obtain ⟨names, declared, hloaded⟩ := Schema.ofDocument_loaded hs
  have htotal : (Go.target {}).Total ((Go.target {}).env _ {}) := Language.go.target_total {} hloaded.closed
  obtain ⟨files, hfiles, _⟩ := htotal.renders hloaded.valid
  refine ⟨_, hs, ⟨files, hfiles⟩, (htotal.print_eq hfiles).2 fun haligned => ?_⟩
  have hfits := (Language.go.aligned_iff {} hloaded.closed).1 haligned rfl (.enum 0 (singleEnum name))
    (Schema.mem_definitions_iff.2 ⟨rfl, rfl⟩)
  have hkey : name.utf8ByteSize + 3 ≤ 65535 := (hfits _ List.mem_cons_self).2
  omega

/-- A member of 70000 letters is such a member. -/
theorem singleDoc_letters_not_printed : ∃ s, Schema.ofDocument (singleDoc (letters 70000)) = .ok s ∧
    (∃ files, (Go.target {}).render s {} = .ok files) ∧ (Go.target {}).print s {} = .error .wideColumn :=
  singleDoc_not_printed (isIdentifier_letters (by decide)) (by rw [utf8ByteSize_letters]; decide)

end FlatSchema

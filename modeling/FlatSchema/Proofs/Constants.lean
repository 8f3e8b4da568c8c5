import FlatSchema.Proofs.HiddenFields
import FlatSchema.Proofs.MemberDefaults
import FlatSchema.Target.PythonNames

/-!
# The constants of fields

The default of a field is kept as text, after a check of the number that it denotes. The constant of a field of an integer type
therefore denotes a number in the range of the type. It is the canonical text of the number unless the declared default is a string
that spells a number in another way, which is kept as it is spelled (`Schema.ofDocument_constants`).
-/

namespace FlatSchema

/-! ## Texts that denote numbers -/

namespace Double

/-- The text of a floating-point number has a point or an exponent. -/
theorem mark_mem_text (l : Layout) (d : Double) : '.' ∈ (d.text l).toList ∨ 'e' ∈ (d.text l).toList := by
  have hplain : ∀ ds x, '.' ∈ plainText ds x := by
    intro ds x
    unfold plainText
    split <;> simp
  have hexponent : ∀ ds x, 'e' ∈ exponentText ds x := by
    intro ds x
    unfold exponentText
    dsimp only
    split <;> simp
  unfold text
  dsimp only
  split
  next => simp
  next =>
    rw [String.toList_ofList]
    refine Or.imp (List.mem_append_right _) (List.mem_append_right _) ?_
    split
    next => exact .inl (hplain _ _)
    next => exact .inr (hexponent _ _)

/-- The text of a float is not that of an integer. -/
theorem readInt?_text (l : Layout) (d : Double) : Text.readInt? (d.text l).toList = none := by
  refine Option.eq_none_iff_forall_not_mem.2 fun v hv => ?_
  have hchars := (Text.readInt?_chars hv).2
  rcases mark_mem_text l d with hmark | hmark
  · exact absurd (hchars _ hmark) (by decide)
  · exact absurd (hchars _ hmark) (by decide)

end Double

/-- An identifier is not the text of an integer. -/
theorem readInt?_of_isIdentifier {name : String} (h : isIdentifier name = true) : Text.readInt? name.toList = none := by
  refine Option.eq_none_iff_forall_not_mem.2 fun v hv => ?_
  unfold isIdentifier at h
  split at h
  next => cases h
  next c t hname =>
    have hfirst := (Text.readInt?_chars hv).2 c (by simp [hname])
    have hletter : 65 ≤ c.toNat := by
      have hc := (Bool.and_eq_true_iff.1 h).1
      unfold Char.isAlpha Char.isUpper Char.isLower at hc
      simp only [Bool.or_eq_true, Bool.and_eq_true, decide_eq_true_eq, beq_iff_eq, ge_iff_le, UInt32.le_iff_toNat_le] at hc
      rcases hc with hc | rfl
      · have hc : (65 ≤ c.toNat ∧ c.toNat ≤ 90) ∨ (97 ≤ c.toNat ∧ c.toNat ≤ 122) := hc
        omega
      · decide
    have hends : '0'.toNat = 48 ∧ '9'.toNat = 57 ∧ '-'.toNat = 45 ∧ '+'.toNat = 43 := ⟨rfl, rfl, rfl, rfl⟩
    rcases hfirst with hdigit | rfl | rfl
    · have hrange := Char.isDigit_iff_toNat.1 hdigit
      omega
    · omega
    · omega

namespace Default

/-- What names members denotes no number. -/
theorem readInt?_of_memberValue? {e : EnumDef} (hnames : ∀ m ∈ e.vals, isIdentifier m.name = true) {s : List Char} {v : Int}
    (h : memberValue? e s = some v) : Text.readInt? s = none := by
  refine Option.eq_none_iff_forall_not_mem.2 fun w hw => ?_
  obtain ⟨hne, hchars⟩ := Text.readInt?_chars hw
  have hword : Text.IsWord s := by
    refine ⟨hne, fun c hc => ?_⟩
    rcases hchars c hc with hdigit | rfl | rfl
    · exact isBlank_of_isDigit hdigit
    · decide
    · decide
  have hfound : (e.val? (String.ofList s)).isSome = true := by
    unfold memberValue? at h
    split at h
    next =>
      rw [Text.words_of_isWord hword, List.foldlM_cons, Option.bind_eq_bind, Option.bind_eq_some_iff] at h
      obtain ⟨bits, hbits, _⟩ := h
      simpa using Option.isSome_of_eq_some hbits
    next => simpa using Option.isSome_of_eq_some h
  obtain ⟨m, hm⟩ := Option.isSome_iff_exists.1 hfound
  have hname : m.name = String.ofList s := by simpa using List.find?_some hm
  have hnone := readInt?_of_isIdentifier (hnames m (List.mem_of_find?_eq_some hm))
  rw [hname, String.toList_ofList, Option.mem_def.1 hw] at hnone
  cases hnone

/-- A text passes the check for an integer type exactly if it denotes a number in the range of the type. -/
theorem check_eq_ok {b : BaseType} (hint : b.isInteger = true) {text : String} :
    check b text = .ok () ↔
      ∃ v bounds, Text.readInt? text.toList = some v ∧ b.range = some bounds ∧ bounds.1 ≤ v ∧ v ≤ bounds.2 := by
  obtain ⟨low, high, hrange⟩ := BaseType.exists_range hint
  have hwide : -Int.pow 2 127 ≤ low ∧ high ≤ Int.pow 2 127 - 1 := by
    cases b <;> cases hrange <;> decide
  rw [check, BaseType.isFloat_of_isInteger hint, if_neg Bool.false_ne_true, hrange, readSigned?]
  cases hread : Text.readInt? text.toList with
  | none => simp
  | some v =>
    rw [Option.bind_some, within]
    by_cases hin : low ≤ v ∧ v ≤ high
    · rw [if_pos ⟨Int.le_trans hwide.1 hin.1, Int.le_trans hin.2 hwide.2⟩]
      simp [hin]
    · by_cases hbits : -Int.pow 2 (128 - 1) ≤ v ∧ v ≤ Int.pow 2 (128 - 1) - 1
      · rw [if_pos hbits]
        simp [hin]
      · rw [if_neg hbits]
        simp [hin]

/-! ## Canonical constants -/

/-- Whether a default is no string that spells a number, or one that spells it canonically. -/
def isPlain : Option Json → Bool
  | some (.string s) => (Text.readInt? (Text.trim s.toList)).isNone || Text.isCanonical (Text.trim s.toList)
  | _ => true

/-- The text of a string default that denotes a number is canonical exactly if the default is plain. -/
theorem isCanonical_ofString {enums : List EnumDef} (hnames : ∀ e ∈ enums, ∀ m ∈ e.vals, isIdentifier m.name = true) {t : TypeDesc}
    {s : String} {v : Int} (hv : Text.readInt? (ofString enums t s).toList = some v) :
    Text.isCanonical (ofString enums t s).toList = true ↔ isPlain (some (.string s)) = true := by
  have hword : ∀ word : String, Text.readInt? word.toList = none → trimmed s = word → isPlain (some (.string s)) = true := by
    intro word hnone hs
    have htrim : Text.trim s.toList = word.toList := by rw [← hs, trimmed, String.toList_ofList]
    simp [isPlain, htrim, hnone]
  unfold ofString at hv ⊢
  dsimp only at hv ⊢
  split at hv
  next htrue =>
    rw [if_pos htrue]
    exact iff_of_true (by decide) (hword "true" (by decide) htrue)
  next htrue =>
    rw [if_neg htrue]
    split at hv
    next hfalse =>
      rw [if_pos hfalse]
      exact iff_of_true (by decide) (hword "false" (by decide) hfalse)
    next hfalse =>
      rw [if_neg hfalse]
      split at hv
      next w hw =>
        obtain ⟨e, he, hmember⟩ := Option.bind_eq_some_iff.1 hw
        obtain ⟨i, _, hi⟩ := Option.bind_eq_some_iff.1 he
        have hnone := readInt?_of_memberValue? (hnames e (List.mem_of_getElem? hi)) hmember
        exact iff_of_true (Text.isCanonical_toString w) (by simp [isPlain, hnone])
      next =>
        rw [String.toList_ofList] at hv ⊢
        simp [isPlain, hv]

/-- The text of a default that denotes a number is canonical exactly if the default is plain. -/
theorem isCanonical_textOf {enums : List EnumDef} (hnames : ∀ e ∈ enums, ∀ m ∈ e.vals, isIdentifier m.name = true) {t : TypeDesc}
    {raw : Json} {text : String} (htext : textOf enums t raw = .ok text) {v : Int} (hv : Text.readInt? text.toList = some v) :
    Text.isCanonical text.toList = true ↔ isPlain (some raw) = true := by
  cases raw with
  | bool b =>
    simp only [textOf, ite_error_eq_ok, Except.ok.injEq] at htext
    obtain ⟨_, rfl⟩ := htext
    refine iff_of_true ?_ rfl
    cases b <;> decide
  | number n =>
    simp only [textOf, Except.ok.injEq] at htext
    subst htext
    refine iff_of_true ?_ rfl
    cases n with
    | int w => exact Text.isCanonical_toString w
    | double d =>
      have hnone : Text.readInt? (Number.double d).text.toList = none := Double.readInt?_text Number.layout d
      rw [hv] at hnone
      cases hnone
  | string s =>
    simp only [textOf, Except.ok.injEq] at htext
    subst htext
    exact isCanonical_ofString hnames hv
  | null => simp [textOf] at htext
  | array _ => simp [textOf] at htext
  | object _ => simp [textOf] at htext

/-- A default of an integer type becomes the text of a number in the range of the type, which is canonical exactly if the default is
plain. -/
theorem constant_spec {enums : List EnumDef} (hnames : ∀ e ∈ enums, ∀ m ∈ e.vals, isIdentifier m.name = true) {t : TypeDesc}
    (hint : t.base.isInteger = true) {context text : String} {declared : Option Json}
    (h : constant enums t context declared = .ok text) :
    ∃ v bounds, Text.readInt? text.toList = some v ∧ t.base.range = some bounds ∧ bounds.1 ≤ v ∧ v ≤ bounds.2 ∧
      (Text.isCanonical text.toList = true ↔ isPlain declared = true) := by
  cases declared with
  | none =>
    cases h
    obtain ⟨v, bounds, hv, hrange, hlow, hhigh⟩ := (check_eq_ok hint).1 (check_bit hint).1
    exact ⟨v, bounds, hv, hrange, hlow, hhigh, iff_of_true (by decide) rfl⟩
  | some raw =>
    obtain ⟨_, h⟩ := ite_error_eq_ok.1 h
    split at h
    next => cases h
    next text' htext =>
      split at h
      next => cases h
      next hcheck =>
        cases h
        obtain ⟨v, bounds, hv, hrange, hlow, hhigh⟩ := (check_eq_ok hint).1 hcheck
        exact ⟨v, bounds, hv, hrange, hlow, hhigh, isCanonical_textOf hnames htext hv⟩

end Default

/-! ## Constants in a schema -/

theorem exists_of_mem_forall₂ {α β : Type} {R : α → β → Prop} {xs : List α} {ys : List β} (h : List.Forall₂ R xs ys) {y : β}
    (hy : y ∈ ys) : ∃ x, R x y := by
  induction h with
  | nil => cases hy
  | cons hxy _ ih =>
    rcases List.mem_cons.1 hy with rfl | hy
    · exact ⟨_, hxy⟩
    · exact ih hy

/-- The constant of a field is a text of a number in the range of its type. -/
structure FieldDef.Denotes (f : FieldDef) (v : Int) : Prop where
  read : Text.readInt? f.constant.toList = some v
  inRange : ∃ bounds, f.type.base.range = some bounds ∧ bounds.1 ≤ v ∧ v ≤ bounds.2

namespace FieldDef

variable {f : FieldDef} {v : Int}

/-- A field without a default denotes zero. -/
theorem denotes_zero (hconstant : f.constant = "0") (hint : f.type.base.isInteger = true) : f.Denotes 0 := by
  obtain ⟨v, bounds, hv, hrange, hin⟩ := (Default.check_eq_ok hint).1 (Default.check_bit hint).1
  cases hv
  exact ⟨by rw [hconstant]; rfl, bounds, hrange, hin⟩

/-- The canonical constants of truth values are zero and one. -/
theorem Denotes.bool (h : f.Denotes v) (hbool : f.type.base = .bool) :
    Text.isCanonical f.constant.toList = true ↔ f.constant = "0" ∨ f.constant = "1" := by
  constructor
  · intro hcanonical
    have htext : f.constant = toString v := String.toList_inj.1 ((Text.isCanonical_iff h.read).1 hcanonical)
    obtain ⟨bounds, hrange, hlow, hhigh⟩ := h.inRange
    rw [hbool] at hrange
    cases hrange
    dsimp only at hlow hhigh
    obtain rfl | rfl : v = 0 ∨ v = 1 := by omega
    · exact .inl htext
    · exact .inr htext
  · rintro (hzero | hone)
    · rw [hzero]
      decide
    · rw [hone]
      decide

end FieldDef

/-- What the constant of a declared field is. -/
theorem FieldDoc.Gives.denotes {names : NameTable} {enums : List EnumDef} {scope : Namespace} {owner : String} {decl : FieldDoc}
    {f : FieldDef} (h : decl.Gives names enums scope owner f) (hnames : ∀ e ∈ enums, ∀ m ∈ e.vals, isIdentifier m.name = true)
    (hint : f.type.base.isInteger = true) :
    (∃ v, f.Denotes v) ∧ (Text.isCanonical f.constant.toList = true ↔ Default.isPlain decl.default = true) := by
  obtain ⟨v, bounds, hv, hrange, hlow, hhigh, hcanonical⟩ := Default.constant_spec hnames hint h.constant
  exact ⟨⟨v, hv, bounds, hrange, hlow, hhigh⟩, hcanonical⟩

/-- A discriminant has the constant zero. -/
theorem Loaded.hidden_constant {doc : SchemaDoc} {names : NameTable} {declared : List StructDef} {s : Schema}
    (h : Loaded doc names declared s) {i : Nat} {d : StructDef} (hd : s.structs[i]? = some d) :
    ∀ f ∈ d.hiddenFields, f.constant = "0" := by
  intro f hf
  obtain ⟨hf, hdisc⟩ := List.mem_filter.1 hf
  obtain ⟨sd, groups, _, hgroups, hsame⟩ := h.struct_groups hd
  obtain ⟨g, hg, hgf⟩ := List.mem_map.1 (hsame ▸ List.mem_map_of_mem hf)
  obtain ⟨k, hk⟩ := List.mem_iff_getElem?.1 hg
  rw [FieldDef.of_unplaced hgf.symm] at hdisc ⊢
  obtain ⟨u, _, hann⟩ := groups_union_behind hgroups k g hk hdisc
  exact hann.constant

/-- The fields of a struct that are no discriminants come from the declared ones in order. -/
theorem Loaded.declared_gives {doc : SchemaDoc} {names : NameTable} {declared : List StructDef} {s : Schema}
    (h : Loaded doc names declared s) {i : Nat} {d : StructDef} (hd : s.structs[i]? = some d) : ∃ sd, doc.structs[i]? = some sd ∧
      List.Forall₂ (FieldDoc.Gives names s.enums (Namespace.ofDotted sd.scope) sd.qualifiedName) sd.fields d.declaredFields := by
  obtain ⟨sd, groups, hsd, hgroups, hsame⟩ := h.struct_groups hd
  exact ⟨sd, hsd, declared_of_unplaced (fun decl f f' hsame hf => hf.of_unplaced hsame) hsame (groups_declared hgroups)⟩

/-- In the schema of a document the constant of every field of an integer type is a text of a number in the range of the type. A
discriminant has the constant zero. The constant of a declared field is the canonical text of its number exactly if the default is
plain: a string that spells a number in another way is kept as it is. For truth values the canonical constants are zero and one. -/
theorem Schema.ofDocument_constants {doc : SchemaDoc} {s : Schema} (h : Schema.ofDocument doc = .ok s) {i : Nat} {d : StructDef}
    (hd : s.structs[i]? = some d) :
    (∀ f ∈ d.fields, f.type.base.isInteger = true → ∃ v, f.Denotes v) ∧
    (∀ f ∈ d.hiddenFields, f.constant = "0") ∧
    (∃ sd, doc.structs[i]? = some sd ∧
      List.Forall₂ (fun decl f => f.name = decl.name ∧ (f.type.base.isInteger = true → ∀ v, f.Denotes v →
        (Text.isCanonical f.constant.toList = true ↔ Default.isPlain decl.default = true) ∧
        (f.constant = toString v ↔ Default.isPlain decl.default = true))) sd.fields d.declaredFields) ∧
    ∀ f ∈ d.fields, f.type.base = .bool →
      (Text.isCanonical f.constant.toList = true ↔ f.constant = "0" ∨ f.constant = "1") := by
  obtain ⟨names, declared, h⟩ := Schema.ofDocument_loaded h
  have hnames := (Validity.checkNames_eq_ok.1 (Schema.validate_eq_ok.1 h.valid).1).2.2.1
  obtain ⟨sd, hsd, hgives⟩ := h.declared_gives hd
  have hdenotes : ∀ f ∈ d.fields, f.type.base.isInteger = true → ∃ v, f.Denotes v := by
    intro f hf hint
    by_cases hdisc : f.isDiscriminant = true
    · exact ⟨0, FieldDef.denotes_zero (h.hidden_constant hd f (List.mem_filter.2 ⟨hf, hdisc⟩)) hint⟩
    · obtain ⟨decl, hdecl⟩ := exists_of_mem_forall₂ hgives (List.mem_filter.2 ⟨hf, by simpa using hdisc⟩)
      exact (hdecl.denotes hnames hint).1
  refine ⟨hdenotes, h.hidden_constant hd, ⟨sd, hsd, ?_⟩, ?_⟩
  · refine hgives.imp ?_
    intro decl f hf
    refine ⟨hf.name, fun hint v hv => ?_⟩
    have hplain := (hf.denotes hnames hint).2
    refine ⟨hplain, ?_⟩
    rw [← hplain, Text.isCanonical_iff hv.read, String.toList_inj]
  · intro f hf hbool
    obtain ⟨v, hv⟩ := hdenotes f hf (by rw [hbool]; rfl)
    exact hv.bool hbool

/-- Fields of integer types with defaults of all kinds. -/
def defaultsDoc : SchemaDoc where
  enums := [
    { name := "Color", underlying := some "byte", values := [{ name := "Red", value := some (-3) }, { name := "Blue" }] },
    { name := "Thing", isUnion := true, values := [{ name := "Box" }] }]
  structs := [
    { name := "Box" },
    { name := "T", fields := [
      { name := "ready", type := "bool", default := some (.bool true) },
      { name := "color", type := "Color", default := some (.string " Blue") },
      { name := "thing", type := "Thing" },
      { name := "count", type := "ulong", default := some (.number (.int 18446744073709551615)) },
      { name := "spelled", type := "short", default := some (.string "+007") }] }]

/-- Defaults of a document: truth values, members, numbers, and spellings with a sign and zeros. -/
theorem defaultsDoc_constants : ∃ s d, Schema.ofDocument defaultsDoc = .ok s ∧ s.structs[1]? = some d ∧
    d.fields.map (fun f => (f.name, f.constant)) = [("ready", "1"), ("color", "-2"), ("thing_type", "0"), ("thing", "0"),
      ("count", "18446744073709551615"), ("spelled", "+007")] ∧
    ∀ f ∈ d.fields, f.type.base.isInteger = true → ∃ v, f.Denotes v := by
  obtain ⟨s, hs, hlook⟩ := Schema.exists_ofDocument defaultsDoc
    (fun s => s.structs[1]?.map fun d => d.fields.map fun f => (f.name, f.constant))
    (some [("ready", "1"), ("color", "-2"), ("thing_type", "0"), ("thing", "0"), ("count", "18446744073709551615"),
      ("spelled", "+007")]) (by decide +kernel)
  obtain ⟨d, hd, hconstants⟩ := Option.map_eq_some_iff.1 hlook
  exact ⟨s, d, hs, hd, hconstants, (Schema.ofDocument_constants hs hd).1⟩

/-- A truth value whose default is a zero with a sign. -/
def signedDoc : SchemaDoc where
  structs := [{ name := "T", fields := [{ name := "b", type := "bool", default := some (.string "+0") }] }]

/-- The constant denotes zero and is not the text of zero, so that the literal of the default is the other truth value. -/
theorem signedDoc_literal : ∃ s d f, Schema.ofDocument signedDoc = .ok s ∧ s.structs = [d] ∧ d.fields = [f] ∧
    f.type.base = .bool ∧ f.constant = "+0" ∧ f.Denotes 0 ∧ Text.isCanonical f.constant.toList = false ∧
    Python.literal f.type "0" = "False" ∧ Python.defaultLiteral f = "True" := by
  obtain ⟨s, hs, hlook⟩ := Schema.exists_ofDocument signedDoc (fun s => s.structs.map (·.fields))
    [[{ name := "b", type := .plain .bool, constant := "+0", offset := 4 }]] (by decide +kernel)
  obtain ⟨d, hd, hfields⟩ := List.map_eq_singleton_iff.1 hlook
  exact ⟨s, d, _, hs, hd, hfields, rfl, rfl, ⟨by decide, (0, 1), rfl, by decide, by decide⟩, by decide, by decide, by decide⟩

end FlatSchema

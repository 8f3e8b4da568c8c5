import FlatSchema.Proofs.FieldNames
import FlatSchema.Proofs.Names
import FlatSchema.Proofs.Numerals
import FlatSchema.Proofs.Total.Fbs
import Mathlib.Data.List.TakeDrop
import Mathlib.Data.List.TakeWhile

/-!
# Types in the schema language, read again

The text that is written for the type of a field is read back by resolving it in the namespace of the field's struct or table. A
name of the same namespace is written alone, any other name with its whole namespace. Reading tries built-in types first, and then
the namespaces from the innermost outward, so that the written name may denote something else: a built-in type, or a definition
that lies further inside. In all other cases the type is got back.
-/

namespace FlatSchema

/-! ## The characters of names -/

/-- The characters of words lie between the digit zero and the letter z. -/
theorem isWordChar_range {c : Char} (h : isWordChar c = true) : 48 ≤ c.toNat ∧ c.toNat ≤ 122 := by
  unfold isWordChar Char.isAlphanum Char.isAlpha Char.isUpper Char.isLower Char.isDigit at h
  simp only [Bool.or_eq_true, Bool.and_eq_true, decide_eq_true_eq, beq_iff_eq, ge_iff_le, UInt32.le_iff_toNat_le] at h
  rcases h with h | rfl
  · have h : ((65 ≤ c.toNat ∧ c.toNat ≤ 90) ∨ (97 ≤ c.toNat ∧ c.toNat ≤ 122)) ∨ (48 ≤ c.toNat ∧ c.toNat ≤ 57) := h
    omega
  · decide

/-- The characters of names lie between the dot and the letter z. -/
theorem isNameChar_range {c : Char} (h : isNameChar c = true) : 46 ≤ c.toNat ∧ c.toNat ≤ 122 := by
  rcases Bool.or_eq_true_iff.1 h with h | h
  · have hrange := isWordChar_range h
    omega
  · rw [beq_iff_eq.1 h]
    decide

/-- No visible character of this range is blank. -/
theorem isBlank_of_range {c : Char} (h : 33 ≤ c.toNat ∧ c.toNat ≤ 132) : Text.isBlank c = false := by
  unfold Text.isBlank
  simp only [Bool.or_eq_false_iff, Bool.and_eq_false_iff, decide_eq_false_iff_not, beq_eq_false_iff_ne]
  omega

theorem isBlank_of_isDigit {c : Char} (h : c.isDigit = true) : Text.isBlank c = false := by
  have hword : isWordChar c = true := by
    rw [isWordChar, Char.isAlphanum, h, Bool.or_true, Bool.true_or]
  have hrange := isWordChar_range hword
  exact isBlank_of_range (by omega)

theorem trimStart_of_not_blank : ∀ {s : List Char}, (∀ c ∈ s, Text.isBlank c = false) → Text.trimStart s = s
  | [], _ => rfl
  | c :: s, h => by
    rw [Text.trimStart, List.dropWhile_cons_of_neg (by rw [h c List.mem_cons_self]; exact Bool.false_ne_true)]

/-- There is nothing to trim at a text without blanks. -/
theorem trim_of_not_blank {s : List Char} (h : ∀ c ∈ s, Text.isBlank c = false) : Text.trim s = s := by
  have hreverse : Text.trimStart s.reverse = s.reverse :=
    trimStart_of_not_blank fun c hc => h c (List.mem_reverse.1 hc)
  unfold Text.trimStart at hreverse
  rw [Text.trim, trimStart_of_not_blank h, Text.trimEnd, hreverse, List.reverse_reverse]

/-- A name has no blanks. -/
theorem NameText.not_blank {s : List Char} (h : NameText s) : ∀ c ∈ s, Text.isBlank c = false := by
  intro c hc
  have hrange := isNameChar_range (h c hc)
  exact isBlank_of_range (by omega)

/-! ## Reading the shape of an expression -/

namespace TypeExpr

/-- A name is read as a name. -/
theorem read_name {s : List Char} (h : NameText s) : read s = .ok (.name (String.ofList s)) := by
  cases s with
  | nil => rfl
  | cons c rest =>
    have hc : c ≠ '[' := fun e => h.not_mem (c := '[') (by decide) (e ▸ List.mem_cons_self)
    unfold read
    split
    next inner heq => exact absurd (List.cons.inj heq).1 hc
    next => rfl

/-- An element that is a name is read as it is. -/
theorem readElement_name {s : List Char} (h : NameText s) : readElement s = .ok (String.ofList s) := by
  unfold readElement
  rw [trim_of_not_blank h.not_blank]
  split
  next inner => exact absurd List.mem_cons_self (h.not_mem (c := '[') (by decide))
  next => rfl

theorem dropLast?_concat (c : Char) (s : List Char) : dropLast? c (s ++ [c]) = some s := by
  simp [dropLast?]

theorem splitLast?_of_not_mem {c : Char} {s : List Char} (h : c ∉ s) : splitLast? c s = none := by
  have hall : ∀ d ∈ s.reverse, (d != c) = true := fun d hd => bne_iff_ne.2 fun e => h (e ▸ List.mem_reverse.1 hd)
  simp [splitLast?, List.span_eq_takeWhile_dropWhile, List.dropWhile_eq_nil_iff.2 hall]

/-- A text is split at the last separator. -/
theorem splitLast?_append {c : Char} {s after : List Char} (h : c ∉ after) :
    splitLast? c (s ++ c :: after) = some (s, after) := by
  have hall : ∀ d ∈ after.reverse, (d != c) = true := fun d hd => bne_iff_ne.2 fun e => h (e ▸ List.mem_reverse.1 hd)
  have hreverse : (s ++ c :: after).reverse = after.reverse ++ c :: s.reverse := by simp
  rw [splitLast?, List.span_eq_takeWhile_dropWhile, hreverse, List.takeWhile_append_of_pos hall,
    List.dropWhile_append_of_pos hall]
  simp

/-- A name in brackets is read as a vector. -/
theorem read_vector {s : List Char} (h : NameText s) : read ('[' :: s ++ [']']) = .ok (.vector (String.ofList s)) := by
  rw [List.cons_append, read, dropLast?_concat]
  dsimp only
  rw [splitLast?_of_not_mem (h.not_mem (by decide)), readElement_name h]
  rfl

/-- The digits of a number are read as the number. -/
theorem readUnsigned?_toString {bits n : Nat} (h : n < Nat.pow 2 bits) : readUnsigned? bits (toString n) = some n := by
  have hnat : Text.readNat? (Nat.toDigits 10 n) = some n := by
    unfold Text.readNat?
    split
    next rest heq =>
      have hplus := Json.toDigits_isDigit n '+' (heq ▸ List.mem_cons_self)
      exact absurd hplus (by decide)
    next => exact Text.readDigits?_toDigits n
  rw [readUnsigned?, Nat.toString_eq_ofList_toDigits, String.toList_ofList, hnat, Option.bind_some, if_pos h]

/-- A number is written with digits. -/
theorem toString_digits (n : Nat) : ∀ c ∈ (toString n).toList, c.isDigit = true := by
  intro c hc
  rw [Nat.toString_eq_ofList_toDigits, String.toList_ofList] at hc
  exact Json.toDigits_isDigit n c hc

theorem toString_not_blank (n : Nat) : ∀ c ∈ (toString n).toList, Text.isBlank c = false :=
  fun c hc => isBlank_of_isDigit (toString_digits n c hc)

/-- A length of 16 bits that is not zero is read back. -/
theorem readLength_toString {n : Nat} (hpos : 1 ≤ n) (hn : n ≤ 65535) : readLength (toString n).toList = .ok n := by
  have hlt : n < Nat.pow 2 16 := Nat.lt_of_le_of_lt hn (by decide)
  unfold readLength
  rw [trim_of_not_blank (toString_not_blank n), String.ofList_toList, readUnsigned?_toString hlt]
  split
  next h => cases h
  next h =>
    cases h
    omega
  next m _ h =>
    cases h
    rfl

/-- A name and a length in brackets are read as an array. -/
theorem read_array {s : List Char} (h : NameText s) {n : Nat} (hpos : 1 ≤ n) (hn : n ≤ 65535) :
    read ('[' :: s ++ ':' :: (toString n).toList ++ [']']) = .ok (.array (String.ofList s) n) := by
  have hcolon : ':' ∉ (toString n).toList := fun hc => absurd (toString_digits n ':' hc) (by decide)
  rw [List.cons_append, List.cons_append, read, dropLast?_concat]
  dsimp only
  rw [splitLast?_append hcolon]
  dsimp only
  rw [readLength_toString hpos hn, readElement_name h]
  rfl

section TypeOf

variable (names : NameTable) (enums : List EnumDef) (scope : Namespace) (context : String) {atom : String}

/-- The type that a name stands for is looked up. -/
theorem typeOf_name (h : NameText atom.toList) :
    typeOf names enums scope context atom = resolveName names enums scope context atom := by
  rw [typeOf, trim_of_not_blank h.not_blank, read_name h, String.ofList_toList]
  rfl

/-- A vector is read with the type of its element. -/
theorem typeOf_vector (h : NameText atom.toList) : typeOf names enums scope context ("[" ++ atom ++ "]") =
    (resolveName names enums scope context atom >>= fun t => pure t.vectorOf) := by
  have hchars : ("[" ++ atom ++ "]").toList = '[' :: atom.toList ++ [']'] := by simp
  have hblank : ∀ c ∈ '[' :: atom.toList ++ [']'], Text.isBlank c = false := by
    intro c hc
    rcases List.mem_append.1 hc with hc | hc
    · rcases List.mem_cons.1 hc with rfl | hc
      · decide
      · exact h.not_blank c hc
    · rw [List.mem_singleton.1 hc]
      decide
  rw [typeOf, hchars, trim_of_not_blank hblank, read_vector h, String.ofList_toList]
  rfl

/-- An array is read with the type of its element and its length. -/
theorem typeOf_array (h : NameText atom.toList) {n : Nat} (hpos : 1 ≤ n) (hn : n ≤ 65535) :
    typeOf names enums scope context ("[" ++ atom ++ ":" ++ toString n ++ "]") =
      (resolveName names enums scope context atom >>= fun t => pure (t.arrayOf n)) := by
  have hchars : ("[" ++ atom ++ ":" ++ toString n ++ "]").toList = '[' :: atom.toList ++ ':' :: (toString n).toList ++ [']'] := by
    simp
  have hblank : ∀ c ∈ '[' :: atom.toList ++ ':' :: (toString n).toList ++ [']'], Text.isBlank c = false := by
    intro c hc
    rcases List.mem_append.1 hc with hc | hc
    · rcases List.mem_append.1 hc with hc | hc
      · rcases List.mem_cons.1 hc with rfl | hc
        · decide
        · exact h.not_blank c hc
      · rcases List.mem_cons.1 hc with rfl | hc
        · decide
        · exact toString_not_blank n c hc
    · rw [List.mem_singleton.1 hc]
      decide
  rw [typeOf, hchars, trim_of_not_blank hblank, read_array h hpos hn, String.ofList_toList]
  rfl

end TypeOf

end TypeExpr

/-! ## The definition that a type refers to -/

/-- The definition that a type refers to, itself or through its elements. -/
def TypeDesc.ref? (t : TypeDesc) : Option Ref := (t.structRef.map Ref.struct).or (t.enumRef.map Ref.enum)

/-- The type that the name of a definition denotes. -/
def Ref.type? (enums : List EnumDef) : Ref → Option TypeDesc
  | .struct i => some (.record i)
  | .enum i => enums[i]?.map fun e => if e.isUnion then .union i else .enumeration e.underlying.base i

/-- The type of a reference leads back to it. -/
theorem Ref.ref?_of_type? {enums : List EnumDef} {ref : Ref} {t : TypeDesc} (h : ref.type? enums = some t) :
    t.ref? = some ref := by
  cases ref with
  | struct i =>
    cases h
    rfl
  | enum i =>
    obtain ⟨e, _, rfl⟩ := Option.map_eq_some_iff.1 h
    cases e.isUnion <;> rfl

namespace Denoted

variable {enums : List EnumDef} {structs : Nat} {t t' : TypeDesc}

/-- A type that is named is the one of its reference. -/
theorem type?_of_ref? (ht : Denoted enums structs t) {ref : Ref} (href : t.ref? = some ref) : ref.type? enums = some t := by
  cases ht with
  | plain => cases href
  | enumeration he hno hb =>
    cases href
    simp [Ref.type?, he, hno, hb, TypeDesc.plain]
  | record =>
    cases href
    rfl
  | union he hyes =>
    cases href
    simp [Ref.type?, he, hyes]

/-- What refers to nothing is a built-in type. -/
theorem eq_plain (ht : Denoted enums structs t) (href : t.ref? = none) :
    ∃ b : BaseType, t = .plain b ∧ (b.isScalar = true ∨ b = .string) ∧ b ≠ .utype := by
  cases ht with
  | plain hb hu => exact ⟨_, rfl, hb, hu⟩
  | enumeration => cases href
  | record => cases href
  | union => cases href

/-- Vectors are told apart by their elements. -/
theorem vectorOf_inj (ht : Denoted enums structs t) (ht' : Denoted enums structs t') (h : t.vectorOf = t'.vectorOf) : t = t' := by
  rw [← ht.elementType_eq, ← ht'.elementType_eq]
  exact congrArg TypeDesc.elementType h

/-- Arrays of one length are told apart by their elements. -/
theorem arrayOf_inj (ht : Denoted enums structs t) (ht' : Denoted enums structs t') {n : Nat} (h : t.arrayOf n = t'.arrayOf n) :
    t = t' := by
  rw [← ht.elementType_eq, ← ht'.elementType_eq]
  exact congrArg TypeDesc.elementType h

end Denoted

/-- What a name denotes: a built-in type, or what the definition that is found by it gives. -/
theorem TypeExpr.resolveName_eq_ok {names : NameTable} {enums : List EnumDef} {scope : Namespace} {context name : String}
    {t : TypeDesc} : resolveName names enums scope context name = .ok t ↔
      (∃ b, BaseType.builtin? name = some b ∧ t = .plain b) ∨
      (BaseType.builtin? name = none ∧ ∃ ref, names.find? name scope = some ref ∧ ref.type? enums = some t) := by
  unfold resolveName
  cases BaseType.builtin? name with
  | some b => simp [eq_comm]
  | none =>
    cases names.find? name scope with
    | none => simp
    | some ref =>
      cases ref with
      | struct i => simp [Ref.type?]
      | enum i => cases henum : enums[i]? <;> simp [Ref.type?, henum]

/-! ## Names that read as something else -/

namespace Schema

/-- A definition has the namespace and the name. -/
def Declares (s : Schema) (scope : Namespace) (name : String) : Prop :=
  (∃ e ∈ s.enums, e.scope = scope ∧ e.name = name) ∨ ∃ d ∈ s.structs, d.scope = scope ∧ d.name = name

instance (s : Schema) (scope : Namespace) (name : String) : Decidable (s.Declares scope name) :=
  inferInstanceAs (Decidable (_ ∨ _))

/-- A name is declared if some reference leads to it. -/
theorem declares_iff {s : Schema} {scope : Namespace} {name : String} :
    s.Declares scope name ↔ ∃ ref, s.nameAt? ref = some (scope, name) := by
  constructor
  · rintro (⟨e, he, rfl, rfl⟩ | ⟨d, hd, rfl, rfl⟩)
    · obtain ⟨i, hi⟩ := List.mem_iff_getElem?.1 he
      exact ⟨.enum i, by rw [nameAt?, hi]; rfl⟩
    · obtain ⟨i, hi⟩ := List.mem_iff_getElem?.1 hd
      exact ⟨.struct i, by rw [nameAt?, hi]; rfl⟩
  · rintro ⟨i | i, href⟩
    · obtain ⟨e, he, ⟨⟩⟩ := Option.map_eq_some_iff.1 href
      exact .inl ⟨e, List.mem_of_getElem? he, rfl, rfl⟩
    · obtain ⟨d, hd, ⟨⟩⟩ := Option.map_eq_some_iff.1 href
      exact .inr ⟨d, List.mem_of_getElem? hd, rfl, rfl⟩

/-- What is written in a namespace for a definition reads as something else there. Either it is a name alone, and this is the name
of a built-in type; or it begins with the namespace of the definition, and a namespace around the place has another of this name
further inside. -/
def Hides (s : Schema) (here scope : Namespace) (name : String) : Prop :=
  ((scope = here ∨ scope.isRoot = true) ∧ (BaseType.builtin? name).isSome = true) ∨
    (scope ≠ here ∧
      ∃ n, n < here.components.length ∧ s.Declares ⟨here.components.take (n + 1) ++ scope.components⟩ name)

instance (s : Schema) (here scope : Namespace) (name : String) : Decidable (s.Hides here scope name) :=
  inferInstanceAs (Decidable (_ ∨ _))

end Schema

/-- The definition that a type refers to is hidden where the type is written. -/
def TypeDesc.HiddenFrom (s : Schema) (here : Namespace) (t : TypeDesc) : Prop :=
  ∃ p ∈ t.ref?.bind s.nameAt?, s.Hides here p.1 p.2

instance (s : Schema) (here : Namespace) (t : TypeDesc) : Decidable (t.HiddenFrom s here) :=
  inferInstanceAs (Decidable (∃ p ∈ t.ref?.bind s.nameAt?, s.Hides here p.1 p.2))

/-- Names of built-in types have no dots. -/
theorem builtin?_qualify {scope : Namespace} (h : scope.isRoot = false) (name : String) :
    BaseType.builtin? (scope.qualify name ".") = none := by
  have hdot : '.' ∈ (scope.qualify name ".").toList := by
    rw [Namespace.qualify, h]
    simp
  have hall : ∀ entry ∈ BaseType.builtins, '.' ∉ entry.1.toList := by decide
  rw [BaseType.builtin?, List.lookup_eq_none_iff]
  intro entry hentry
  rw [bne_iff_ne]
  intro heq
  exact hall entry hentry (heq ▸ hdot)

/-- A name is taken for a built-in type only where it is written without its namespace. -/
theorem builtin?_nameFrom {here scope : Namespace} {name : String} : BaseType.builtin? (Fbs.nameFrom here scope name) = none ↔
    ¬((scope = here ∨ scope.isRoot = true) ∧ (BaseType.builtin? name).isSome = true) := by
  unfold Fbs.nameFrom
  by_cases hhere : scope = here
  · simp [hhere]
  · rw [if_neg hhere]
    cases hroot : scope.isRoot with
    | true =>
      rw [Namespace.qualify, if_pos hroot]
      simp
    | false =>
      rw [builtin?_qualify hroot]
      simp [hhere]

/-- A qualified name, qualified once more. -/
theorem candidate_qualify (here scope : Namespace) (name : String) (n : Nat) :
    NameTable.candidate here (scope.qualify name ".") n =
      Namespace.qualify ⟨here.components.take n ++ scope.components⟩ name "." := by
  unfold NameTable.candidate
  rw [Namespace.qualify_eq, Namespace.qualify_eq, Namespace.qualify_eq]
  dsimp only
  generalize here.components.take n = outer
  cases outer with
  | nil => rw [List.nil_append, List.nil_append, String.intercalate_singleton]
  | cons c outer =>
    rw [String.intercalate_append_of_ne_nil (List.cons_ne_nil _ _) (List.cons_ne_nil _ _), String.intercalate_singleton,
      List.append_assoc, String.intercalate_append_of_ne_nil (List.cons_ne_nil _ _) (List.concat_ne_nil _ _)]

/-- A namespace below the front of another one is named by identifiers. -/
theorem Namespace.Named.take_append {here scope : Namespace} (hhere : here.Named) (hscope : scope.Named) (n : Nat) :
    Namespace.Named ⟨here.components.take n ++ scope.components⟩ := by
  intro c hc
  rcases List.mem_append.1 hc with hc | hc
  · exact hhere c (List.mem_of_mem_take hc)
  · exact hscope c hc

namespace Loaded

variable {doc : SchemaDoc} {names : NameTable} {declared : List StructDef} {s : Schema} {here scope : Namespace}
  {name : String} {ref : Ref}

/-- The table of names has no entry for names that are not declared. -/
theorem lookup_qualify_eq_none (h : Loaded doc names declared s) (hscope : scope.Named) (hname : isIdentifier name = true) :
    names.lookup (scope.qualify name ".") = none ↔ ¬s.Declares scope name := by
  rw [Option.eq_none_iff_forall_ne_some, Schema.declares_iff, not_exists]
  exact forall_congr' fun ref => not_congr (h.lookup_qualify_iff hscope hname)

/-- A definition is found by its name alone in its own namespace. -/
theorem find?_name (h : Loaded doc names declared s) (href : s.nameAt? ref = some (here, name)) :
    names.find? name here = some ref := by
  obtain ⟨hname, hhere⟩ := Schema.nameAt?_isIdentifier h.valid href
  refine NameTable.find?_eq_some_iff.2 ⟨here.components.length, Nat.le_refl _, ?_, fun m hm hm' => by omega⟩
  rw [NameTable.candidate, List.take_length]
  exact (h.lookup_qualify_iff hhere hname).2 href

/-- A definition is found by its qualified name where no namespace around has another one by that name further inside. -/
theorem find?_qualify_iff (h : Loaded doc names declared s) (hhere : here.Named) (href : s.nameAt? ref = some (scope, name)) :
    names.find? (scope.qualify name ".") here = some ref ↔
      ∀ n, n < here.components.length → ¬s.Declares ⟨here.components.take (n + 1) ++ scope.components⟩ name := by
  obtain ⟨hname, hscope⟩ := Schema.nameAt?_isIdentifier h.valid href
  have hnamed := fun n => hhere.take_append hscope n
  rw [NameTable.find?_eq_some_iff]
  simp only [candidate_qualify, h.lookup_qualify_iff (hnamed _) hname, h.lookup_qualify_eq_none (hnamed _) hname]
  constructor
  · rintro ⟨n, hn, hat, hnone⟩ m hm
    -- the definition is in one namespace only, so that it was found outermost
    rw [href, Option.some.injEq, Prod.mk.injEq] at hat
    have hlength := congrArg (fun k : Namespace => k.components.length) hat.1
    simp only [List.length_append, List.length_take] at hlength
    exact hnone (m + 1) (by omega) (by omega)
  · intro hnone
    refine ⟨0, Nat.zero_le _, href, fun m hm hm' => ?_⟩
    have hpred := hnone (m - 1) (by omega)
    rwa [Nat.sub_add_cancel hm] at hpred

/-- What is written for a definition leads back to it exactly where the definition is not hidden. -/
theorem find?_nameFrom_iff (h : Loaded doc names declared s) (hhere : here.Named) (href : s.nameAt? ref = some (scope, name)) :
    (BaseType.builtin? (Fbs.nameFrom here scope name) = none ∧ names.find? (Fbs.nameFrom here scope name) here = some ref) ↔
      ¬s.Hides here scope name := by
  rw [builtin?_nameFrom, Schema.Hides, not_or]
  refine and_congr_right fun _ => ?_
  unfold Fbs.nameFrom
  by_cases hscope : scope = here
  · subst hscope
    simp [h.find?_name href]
  · rw [if_neg hscope, h.find?_qualify_iff hhere href]
    simp [hscope]

end Loaded

/-! ## The text of a type -/

/-- The name by which a built-in type is written denotes it. -/
theorem BaseType.builtin?_name {b : BaseType} (hb : b.isScalar = true ∨ b = .string) (hu : b ≠ .utype) :
    builtin? b.name = some b ∧ NameText b.name.toList := by
  have hall : ∀ b ∈ BaseType.all, (b.isScalar = true ∨ b = .string) → b ≠ .utype →
      builtin? b.name = some b ∧ b.name.toList.all isNameChar = true := by decide
  obtain ⟨hname, hchars⟩ := hall b (by cases b <;> decide) hb hu
  exact ⟨hname, List.all_eq_true.1 hchars⟩

namespace Fbs

variable {env : Env} {here : Namespace} {t : TypeDesc}

/-- A built-in type is written by its name. -/
theorem atomText_plain {b : BaseType} (hb : b.isScalar = true ∨ b = .string) : atomText env here (.plain b) = .ok b.name := by
  unfold atomText
  dsimp only [TypeDesc.plain]
  split
  next => rfl
  next => simp [BaseType.isScalar, BaseType.isInteger, BaseType.isFloat] at hb
  next hstring hstruct =>
    have hunion : b ≠ .union := by
      rintro rfl
      simp [BaseType.isScalar, BaseType.isInteger, BaseType.isFloat] at hb
    simp [hunion, TypeDesc.isEnum]

/-- A type that refers to a definition is written as the name of the definition. -/
theorem atomText_ref (ht : Denoted env.schema.enums env.schema.structs.length t) {ref : Ref} (href : t.ref? = some ref)
    {scope : Namespace} {name : String} (hname : env.schema.nameAt? ref = some (scope, name)) :
    atomText env here t = .ok (nameFrom here scope name) := by
  cases ht with
  | plain => cases href
  | @enumeration b i _ _ _ _ hint _ hu =>
    cases href
    obtain ⟨e, he, ⟨⟩⟩ := Option.map_eq_some_iff.1 hname
    have hfound : env.enumOf (.enumeration b i) = .ok e := Env.enumOf_eq_ok.2 he
    unfold atomText
    split
    next hb =>
      cases hb
      cases hint
    next hb =>
      cases hb
      cases hint
    next =>
      have henum : (TypeDesc.enumeration b i).isEnum = true := by
        simp [TypeDesc.isEnum, TypeDesc.enumeration, hint, hu]
      rw [henum, Bool.or_true, if_pos rfl, hfound]
      rfl
  | @record i =>
    cases href
    obtain ⟨d, hd, ⟨⟩⟩ := Option.map_eq_some_iff.1 hname
    have hfound : env.structOf (.record i) = .ok d := Env.structOf_eq_ok.2 hd
    show (env.structOf (.record i) >>= fun d => pure (nameFrom here d.scope d.name)) = _
    rw [hfound]
    rfl
  | @union i _ _ _ =>
    cases href
    obtain ⟨e, he, ⟨⟩⟩ := Option.map_eq_some_iff.1 hname
    have hfound : env.enumOf (.union i) = .ok e := Env.enumOf_eq_ok.2 he
    show (env.enumOf (.union i) >>= fun e => pure (nameFrom here e.scope e.name)) = _
    rw [hfound]
    rfl

section Containers

variable (ht : Denoted env.schema.enums env.schema.structs.length t) {atom : String} (h : atomText env here t = .ok atom)

include ht

/-- A container of what a name denotes has one layer. -/
theorem layers_container {b : BaseType} (hb : b.isContainer = true) (n : Nat) :
    let c : TypeDesc := { base := b, element := t.base, structRef := t.structRef, enumRef := t.enumRef, length := n }
    c.innermost = t ∧ c.layers = [(b, n)] := by
  have hcontainer : t.base.isContainer = false := ht.atom.not_container
  simp only [TypeDesc.innermost, TypeDesc.layers, hb, hcontainer]
  exact ⟨ht.elementType_eq, rfl⟩

include h

/-- A type that is no container is written as its atom. -/
theorem typeText_name : typeText env here t = .ok atom := by
  have hlayers : t.layers = [] := by
    rw [TypeDesc.layers, ht.atom.not_container]
    rfl
  rw [typeText, ht.atom.innermost_eq, hlayers, h]
  rfl

/-- A vector is written as its atom in brackets. -/
theorem typeText_vector : typeText env here t.vectorOf = .ok ("[" ++ atom ++ "]") := by
  obtain ⟨hinner, hlayers⟩ := layers_container ht (b := .vector) rfl 0
  rw [typeText, TypeDesc.vectorOf, hinner, hlayers, h]
  rfl

/-- An array is written with its length behind the atom. -/
theorem typeText_array (n : Nat) : typeText env here (t.arrayOf n) = .ok ("[" ++ atom ++ ":" ++ toString n ++ "]") := by
  obtain ⟨hinner, hlayers⟩ := layers_container ht (b := .array) rfl n
  rw [typeText, TypeDesc.arrayOf, hinner, hlayers, h]
  rfl

end Containers

end Fbs

/-! ## Reading what was written -/

/-- A type that refers to a definition has a name to write. -/
theorem Denoted.nameAt?_ref {s : Schema} {t : TypeDesc} (ht : Denoted s.enums s.structs.length t) {ref : Ref}
    (href : t.ref? = some ref) : ∃ scope name, s.nameAt? ref = some (scope, name) := by
  cases ht with
  | plain => cases href
  | enumeration he =>
    cases href
    exact ⟨_, _, Option.map_eq_some_iff.2 ⟨_, he, rfl⟩⟩
  | record hi =>
    cases href
    exact ⟨_, _, Option.map_eq_some_iff.2 ⟨_, List.getElem?_eq_getElem hi, rfl⟩⟩
  | union he =>
    cases href
    exact ⟨_, _, Option.map_eq_some_iff.2 ⟨_, he, rfl⟩⟩

/-- What is written for a definition is a name. -/
theorem Fbs.nameFrom_nameText {here scope : Namespace} {name : String} (hscope : scope.Named) (hname : isIdentifier name = true) :
    NameText (nameFrom here scope name).toList := by
  unfold nameFrom
  split
  next => exact Namespace.qualify_nameText (n := {}) (fun c hc => absurd hc List.not_mem_nil) hname
  next => exact Namespace.qualify_nameText hscope hname

namespace Loaded

variable {doc : SchemaDoc} {names : NameTable} {declared : List StructDef} {env : Env} {here : Namespace} {t : TypeDesc}

/-- What is written for a type that is no container denotes the type exactly where the type is not hidden. -/
theorem resolveName_atomText (h : Loaded doc names declared env.schema) (hhere : here.Named)
    (ht : Denoted env.schema.enums env.schema.structs.length t) (context : String) :
    ∃ atom, Fbs.atomText env here t = .ok atom ∧ NameText atom.toList ∧
      (TypeExpr.resolveName names env.schema.enums here context atom = .ok t ↔ ¬t.HiddenFrom env.schema here) := by
  cases href : t.ref? with
  | none =>
    obtain ⟨b, rfl, hb, hu⟩ := ht.eq_plain href
    obtain ⟨hbuiltin, htext⟩ := BaseType.builtin?_name hb hu
    refine ⟨b.name, Fbs.atomText_plain hb, htext, ?_⟩
    have hvisible : ¬(TypeDesc.plain b).HiddenFrom env.schema here := by
      rintro ⟨p, hp, _⟩
      rw [href] at hp
      cases hp
    simp only [hvisible, not_false_eq_true, iff_true]
    exact TypeExpr.resolveName_eq_ok.2 (.inl ⟨b, hbuiltin, rfl⟩)
  | some ref =>
    obtain ⟨scope, name, hat⟩ := ht.nameAt?_ref href
    obtain ⟨hname, hscope⟩ := Schema.nameAt?_isIdentifier h.valid hat
    refine ⟨_, Fbs.atomText_ref ht href hat, Fbs.nameFrom_nameText hscope hname, ?_⟩
    have hhidden : t.HiddenFrom env.schema here ↔ env.schema.Hides here scope name := by
      rw [TypeDesc.HiddenFrom, href, Option.bind_some, hat]
      simp
    rw [hhidden, ← h.find?_nameFrom_iff hhere hat, TypeExpr.resolveName_eq_ok]
    constructor
    · rintro (⟨b, _, rfl⟩ | ⟨hbuiltin, ref', hfind, htype⟩)
      · cases href
      · have hsame := Ref.ref?_of_type? htype
        rw [href, Option.some.injEq] at hsame
        exact ⟨hbuiltin, hsame ▸ hfind⟩
    · rintro ⟨hbuiltin, hfind⟩
      exact .inr ⟨hbuiltin, ref, hfind, ht.type?_of_ref? href⟩

/-- What is written for a type denotes the type exactly where the type is not hidden. -/
theorem typeOf_typeText (h : Loaded doc names declared env.schema) (hhere : here.Named)
    (ht : Expressed env.schema.enums env.schema.structs.length t) (context : String) :
    ∃ text, Fbs.typeText env here t = .ok text ∧
      (TypeExpr.typeOf names env.schema.enums here context text = .ok t ↔ ¬t.HiddenFrom env.schema here) := by
  -- what a name resolves to is no container, so that the layer around it can be taken off again
  have hdenoted : ∀ {e : TypeDesc} {name : String}, TypeExpr.resolveName names env.schema.enums here context name = .ok e →
      Denoted env.schema.enums env.schema.structs.length e :=
    TypeExpr.resolveName_denoted h.names_inRange fun e he => h.enum_resolved he
  cases ht with
  | name ht =>
    obtain ⟨atom, hatom, htext, hiff⟩ := h.resolveName_atomText hhere ht context
    refine ⟨_, Fbs.typeText_name ht hatom, ?_⟩
    rwa [TypeExpr.typeOf_name _ _ _ _ htext]
  | @vector e ht =>
    obtain ⟨atom, hatom, htext, hiff⟩ := h.resolveName_atomText hhere ht context
    refine ⟨_, Fbs.typeText_vector ht hatom, ?_⟩
    have hhidden : e.vectorOf.HiddenFrom env.schema here ↔ e.HiddenFrom env.schema here := Iff.rfl
    rw [TypeExpr.typeOf_vector _ _ _ _ htext, hhidden, ← hiff, bind_eq_ok]
    constructor
    · rintro ⟨e', he', heq⟩
      rw [← (hdenoted he').vectorOf_inj ht (pure_eq_ok.1 heq)]
      exact he'
    · intro he
      exact ⟨e, he, rfl⟩
  | @array e n ht hpos hn =>
    obtain ⟨atom, hatom, htext, hiff⟩ := h.resolveName_atomText hhere ht context
    refine ⟨_, Fbs.typeText_array ht hatom n, ?_⟩
    have hhidden : (e.arrayOf n).HiddenFrom env.schema here ↔ e.HiddenFrom env.schema here := Iff.rfl
    rw [TypeExpr.typeOf_array _ _ _ _ htext hpos hn, hhidden, ← hiff, bind_eq_ok]
    constructor
    · rintro ⟨e', he', heq⟩
      rw [← (hdenoted he').arrayOf_inj ht (pure_eq_ok.1 heq)]
      exact he'
    · intro he
      exact ⟨e, he, rfl⟩

end Loaded

/-- A field that is no discriminant has the type of an expression. -/
theorem Declared.expressed {enums : List EnumDef} {structs : Nat} {fs : List FieldDef} (h : Declared enums structs fs)
    {f : FieldDef} (hf : f ∈ fs) (hd : f.isDiscriminant = false) : Expressed enums structs f.type := by
  induction h with
  | nil => exact absurd hf List.not_mem_nil
  | field ht _ _ _ ih =>
    rcases List.mem_cons.1 hf with rfl | hf
    · exact ht
    · exact ih hf
  | tagged htag ht _ _ _ ih =>
    rcases List.mem_cons.1 hf with rfl | hf
    · rw [htag.isDiscriminant.1] at hd
      cases hd
    · rcases List.mem_cons.1 hf with rfl | hf
      · exact ht
      · exact ih hf

/-- The type of every declared field of a schema can be written. In the namespace of the field's struct or table, and with the names
of the document, the text denotes the type again exactly when what the type refers to is not hidden there: by a built-in type of
the same name, or by a definition further inside that the written name reaches first. -/
theorem Schema.ofDocument_typeText {doc : SchemaDoc} {s : Schema} (h : Schema.ofDocument doc = .ok s) :
    ∃ names, NameTable.ofDocument doc = .ok names ∧
      ∀ d ∈ s.structs, ∀ f ∈ d.fields, f.isDiscriminant = false → ∀ (options : Options) (context : String),
        ∃ text, Fbs.typeText ((Fbs.target options).env s options) d.scope f.type = .ok text ∧
          (TypeExpr.typeOf names s.enums d.scope context text = .ok f.type ↔ ¬f.type.HiddenFrom s d.scope) := by
  obtain ⟨names, declared, h⟩ := Schema.ofDocument_loaded h
  refine ⟨names, h.table, ?_⟩
  intro d hd f hf hdisc options context
  obtain ⟨i, hi⟩ := List.mem_iff_getElem?.1 hd
  have hat : s.nameAt? (.struct i) = some (d.scope, d.name) := Option.map_eq_some_iff.2 ⟨d, hi, rfl⟩
  have hloaded : Loaded doc names declared ((Fbs.target options).env s options).schema := h
  exact hloaded.typeOf_typeText
    (Schema.nameAt?_isIdentifier h.valid hat).2 ((h.declared_fields hd).expressed hf hdisc) context

/-- Definitions that are referred to from their own namespace, from a namespace inside it and from outside. -/
def scatteredDoc : SchemaDoc where
  enums := [
    { name := "Kind", scope := "a", underlying := some "ubyte", values := [{ name := "Low" }, { name := "High" }] },
    { name := "Any", scope := "a.b", isUnion := true, values := [{ name := "Part" }] }]
  structs := [
    { name := "Point", scope := "a", fixed := true,
      fields := [{ name := "kind", type := "Kind" }, { name := "xs", type := "[float:3]" }] },
    { name := "Part", scope := "a.b", fields := [{ name := "kind", type := " Kind " }, { name := "places", type := "[ Point ]" }] },
    { name := "Whole", fields := [{ name := "part", type := "a.b.Part" }, { name := "parts", type := "[a.b.Any]" }] }]

theorem scatteredDoc_typeText : ∃ s names, Schema.ofDocument scatteredDoc = .ok s ∧
    NameTable.ofDocument scatteredDoc = .ok names ∧
    s.structs.map (fun d => d.declaredFields.map fun f => (Fbs.typeText ((Fbs.target {}).env s {}) d.scope f.type).toOption) =
      [[some "Kind", some "[float:3]"], [some "a.Kind", some "[a.Point]"], [some "a.b.Part", some "[a.b.Any]"]] ∧
    ∀ d ∈ s.structs, ∀ f ∈ d.fields, f.isDiscriminant = false →
      ∃ text, Fbs.typeText ((Fbs.target {}).env s {}) d.scope f.type = .ok text ∧
        TypeExpr.typeOf names s.enums d.scope "" text = .ok f.type := by
  obtain ⟨s, hs, hseen⟩ := Schema.exists_ofDocument scatteredDoc
    (fun s => (s.structs.map (fun d => d.declaredFields.map fun f =>
        (Fbs.typeText ((Fbs.target {}).env s {}) d.scope f.type).toOption),
      decide (∀ d ∈ s.structs, ∀ f ∈ d.fields, ¬f.type.HiddenFrom s d.scope)))
    ([[some "Kind", some "[float:3]"], [some "a.Kind", some "[a.Point]"], [some "a.b.Part", some "[a.b.Any]"]], true)
    (by decide +kernel)
  obtain ⟨htexts, hvisible⟩ := Prod.mk.inj hseen
  obtain ⟨names, hnames, hread⟩ := Schema.ofDocument_typeText hs
  refine ⟨s, names, hs, hnames, htexts, fun d hd f hf hdisc => ?_⟩
  obtain ⟨text, htext, hiff⟩ := hread d hd f hf hdisc {} ""
  exact ⟨text, htext, hiff.2 (of_decide_eq_true hvisible d hd f hf)⟩

/-- A table in a namespace that has another `A.X` inside, and beside a struct with the name of a built-in type. -/
def capturingDoc : SchemaDoc where
  structs := [
    { name := "X", scope := "A" },
    { name := "X", scope := "A.B.A" },
    { name := "int", scope := "A.B" },
    { name := "T", scope := "A.B", fields := [{ name := "x", type := "X" }, { name := "n", type := "B.int" }] }]

/-- The types of the two fields are written and read as other types. -/
theorem capturingDoc_misread : ∃ s names, Schema.ofDocument capturingDoc = .ok s ∧ NameTable.ofDocument capturingDoc = .ok names ∧
    ∃ d ∈ s.structs, ∃ x ∈ d.fields, ∃ n ∈ d.fields, x.type = .record 0 ∧ n.type = .record 2 ∧
      Fbs.typeText ((Fbs.target {}).env s {}) d.scope x.type = .ok "A.X" ∧
      Fbs.typeText ((Fbs.target {}).env s {}) d.scope n.type = .ok "int" ∧
      TypeExpr.typeOf names s.enums d.scope "" "A.X" = .ok (.record 1) ∧
      TypeExpr.typeOf names s.enums d.scope "" "int" = .ok (.plain .int) := by
  obtain ⟨names, hnames⟩ : ∃ names, NameTable.ofDocument capturingDoc = .ok names := ⟨_, rfl⟩
  obtain ⟨s, hs, hseen⟩ := Schema.exists_ofDocument capturingDoc
    (fun s => decide (∃ d ∈ s.structs, ∃ x ∈ d.fields, ∃ n ∈ d.fields, x.type = .record 0 ∧ n.type = .record 2 ∧
      Fbs.typeText ((Fbs.target {}).env s {}) d.scope x.type = .ok "A.X" ∧
      Fbs.typeText ((Fbs.target {}).env s {}) d.scope n.type = .ok "int" ∧
      TypeExpr.typeOf ((NameTable.declarations capturingDoc).map (·.2)) s.enums d.scope "" "A.X" = .ok (.record 1) ∧
      TypeExpr.typeOf ((NameTable.declarations capturingDoc).map (·.2)) s.enums d.scope "" "int" = .ok (.plain .int))) true
    (by decide +kernel)
  obtain ⟨rfl, _⟩ := NameTable.ofDocument_eq_ok.1 hnames
  exact ⟨s, _, hs, hnames, of_decide_eq_true hseen⟩

end FlatSchema

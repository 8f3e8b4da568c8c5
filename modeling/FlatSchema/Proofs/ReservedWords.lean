import FlatSchema.Generation
import FlatSchema.Proofs.Names

/-!
# Reserved words

A reserved word is changed by what naming rules put around it. If a character of that stands in no reserved word
(`Namer.Marks`), changed names are not reserved, changing them again does nothing, and two names are written alike only if one of
them is a reserved word and the other is what it is changed into (`Namer.Evades.escape_eq_iff`). If no identifier has the character
either, different identifiers are never written alike.
-/

namespace FlatSchema

namespace Namer

variable {n : Namer} {a b name : String} {x : Char}

/-- A name with what is put around reserved words. -/
def wrap (n : Namer) (name : String) : String := n.keywordPrefix ++ name ++ n.keywordSuffix

theorem isKeyword_eq_true : n.isKeyword name = true ↔ name ∈ n.keywords := List.contains_iff_mem

/-- A reserved word is wrapped. -/
theorem escape_of_mem (h : name ∈ n.keywords) : n.escape name = n.wrap name := if_pos (isKeyword_eq_true.2 h)

/-- Any other name is kept. -/
theorem escape_of_not_mem (h : name ∉ n.keywords) : n.escape name = name := if_neg (mt isKeyword_eq_true.1 h)

/-- Wrapped words are told apart. -/
theorem wrap_inj : n.wrap a = n.wrap b ↔ a = b := by
  unfold wrap
  rw [String.append_left_inj, String.append_right_inj]

/-- No reserved word comes out of a reserved word. -/
def Evades (n : Namer) : Prop := ∀ k ∈ n.keywords, n.wrap k ∉ n.keywords

/-- A character that is put around reserved words and that none of them has. -/
structure Marks (n : Namer) (x : Char) : Prop where
  around : x ∈ n.keywordPrefix.toList ∨ x ∈ n.keywordSuffix.toList
  absent : ∀ k ∈ n.keywords, x ∉ k.toList

/-- A wrapped word has the mark. -/
theorem Marks.mem_wrap (h : n.Marks x) (name : String) : x ∈ (n.wrap name).toList := by
  unfold wrap
  simp only [String.toList_append, List.mem_append]
  exact h.around.elim (fun hx => .inl (.inl hx)) .inr

/-- A mark that no reserved word has keeps wrapped words from being reserved. -/
theorem Marks.evades (h : n.Marks x) : n.Evades := fun k _ hk => h.absent _ hk (h.mem_wrap k)

namespace Evades

/-- No name is reserved after it is escaped. -/
theorem escape_not_mem (h : n.Evades) (name : String) : n.escape name ∉ n.keywords := by
  by_cases hname : name ∈ n.keywords
  · rw [escape_of_mem hname]
    exact h name hname
  · rwa [escape_of_not_mem hname]

theorem isKeyword_escape (h : n.Evades) (name : String) : n.isKeyword (n.escape name) = false :=
  Bool.eq_false_iff.2 (mt isKeyword_eq_true.1 (h.escape_not_mem name))

/-- Escaping twice is escaping once. -/
theorem escape_escape (h : n.Evades) (name : String) : n.escape (n.escape name) = n.escape name :=
  escape_of_not_mem (h.escape_not_mem name)

/-- A name is not reserved if reserved words are looked for in the converted name. -/
theorem isKeyword_format (h : n.Evades) (horder : n.escapeFirst = false) (k : Case) (name : String) :
    n.isKeyword (n.format k name) = false := by
  rw [format, horder]
  exact h.isKeyword_escape (k.apply name)

/-- Names that are written alike are the same, or one is a reserved word and the other what it is changed into. -/
theorem escape_eq_iff (h : n.Evades) :
    n.escape a = n.escape b ↔ a = b ∨ (a ∈ n.keywords ∧ b = n.wrap a) ∨ (b ∈ n.keywords ∧ a = n.wrap b) := by
  by_cases ha : a ∈ n.keywords <;> by_cases hb : b ∈ n.keywords
  · have hba : b ≠ n.wrap a := fun heq => h a ha (heq ▸ hb)
    have hab : a ≠ n.wrap b := fun heq => h b hb (heq ▸ ha)
    simp [escape_of_mem ha, escape_of_mem hb, wrap_inj, hba, hab]
  · have hne : a ≠ b := fun heq => hb (heq ▸ ha)
    simp [escape_of_mem ha, escape_of_not_mem hb, ha, hb, hne, eq_comm]
  · have hne : a ≠ b := fun heq => ha (heq ▸ hb)
    simp [escape_of_not_mem ha, escape_of_mem hb, ha, hb, hne]
  · simp [escape_of_not_mem ha, escape_of_not_mem hb, ha, hb]

end Evades

/-- Identifiers are not written alike if reserved words are marked by a character that identifiers do not have. -/
theorem Marks.escape_inj (h : n.Marks x) (hx : isWordChar x = false) (ha : isIdentifier a = true) (hb : isIdentifier b = true)
    (heq : n.escape a = n.escape b) : a = b := by
  rcases h.evades.escape_eq_iff.1 heq with heq | ⟨_, heq⟩ | ⟨_, heq⟩
  · exact heq
  · exact absurd (heq ▸ h.mem_wrap a) (not_mem_of_isIdentifier hb hx)
  · exact absurd (heq ▸ h.mem_wrap b) (not_mem_of_isIdentifier ha hx)

end Namer

/-! ## The reserved words of the languages -/

theorem Python.namer_marks (o : Options) : (Python.namer o).Marks '_' :=
  ⟨.inr (by decide : '_' ∈ "_".toList), (by decide +kernel : ∀ k ∈ Python.keywords, '_' ∉ k.toList)⟩

theorem Go.namer_marks (o : Options) : (Go.namer o).Marks '_' :=
  ⟨.inr (by decide : '_' ∈ "_".toList), (by decide +kernel : ∀ k ∈ Go.keywords, '_' ∉ k.toList)⟩

theorem CSharp.namer_marks (o : Options) : (CSharp.namer o).Marks '@' :=
  ⟨.inl (by decide : '@' ∈ "@".toList), (by decide +kernel : ∀ k ∈ CSharp.keywords, '@' ∉ k.toList)⟩

theorem Lua.namer_marks (o : Options) : (Lua.namer o).Marks '_' :=
  ⟨.inr (by decide : '_' ∈ "_".toList), (by decide +kernel : ∀ k ∈ Lua.keywords, '_' ∉ k.toList)⟩

namespace Language

/-- In every language a changed word is not reserved. The schema language and JSON Schema reserve no words. -/
theorem namer_evades (l : Language) (o : Options) : (l.target o).namer.Evades := by
  cases l with
  | python => exact (Python.namer_marks o).evades
  | go => exact (Go.namer_marks o).evades
  | csharp => exact (CSharp.namer_marks o).evades
  | lua => exact (Lua.namer_marks o).evades
  | jsonSchema | fbs => exact fun k hk => absurd hk List.not_mem_nil

/-- Only Python looks for reserved words before the case is converted. -/
theorem namer_escapeFirst (l : Language) (o : Options) : (l.target o).namer.escapeFirst = true ↔ l = .python := by
  cases l with
  | python => exact ⟨fun _ => rfl, fun _ => rfl⟩
  | go | csharp | lua | jsonSchema | fbs => exact ⟨fun h => Bool.noConfusion h, fun h => Language.noConfusion h⟩

/-- A name that becomes a reserved word when it is converted. -/
theorem python_isKeyword_format (o : Options) : (Python.namer o).isKeyword ((Python.namer o).format .upperCamel "none") = true := by
  have hplain : (Python.namer o).escape "none" = "none" :=
    Namer.escape_of_not_mem (by decide +kernel : "none" ∉ Python.keywords)
  show (Python.namer o).isKeyword (Case.upperCamel.apply ((Python.namer o).escape "none")) = true
  rw [hplain, Namer.isKeyword_eq_true]
  exact (by decide +kernel : Case.upperCamel.apply "none" ∈ Python.keywords)

/-- In every language a name is changed into one that is not reserved and that is not changed again. Names in any case are not reserved
exactly if reserved words are looked for after the case is converted, as all languages but Python do. Different names are written
alike exactly if one is a reserved word and the other is this word with what is put around it, so in C# no two identifiers are. -/
theorem escape_evades_reserved (l : Language) (o : Options) :
    let n := (l.target o).namer
    (∀ name, n.isKeyword (n.escape name) = false ∧ n.escape (n.escape name) = n.escape name) ∧
    ((∀ k name, n.isKeyword (n.format k name) = false) ↔ n.escapeFirst = false) ∧ (n.escapeFirst = true ↔ l = .python) ∧
    (∀ a b, a ≠ b → (n.escape a = n.escape b ↔ ∃ k, n.isKeyword k = true ∧
      (a = k ∧ b = n.keywordPrefix ++ k ++ n.keywordSuffix ∨ b = k ∧ a = n.keywordPrefix ++ k ++ n.keywordSuffix))) ∧
    (l = .csharp → ∀ a b, isIdentifier a = true → isIdentifier b = true → n.escape a = n.escape b → a = b) := by
  intro n
  have hevades : n.Evades := l.namer_evades o
  refine ⟨fun name => ⟨hevades.isKeyword_escape name, hevades.escape_escape name⟩, ⟨fun h => ?_, hevades.isKeyword_format⟩,
    l.namer_escapeFirst o, fun a b hne => ?_, ?_⟩
  · refine Bool.eq_false_iff.2 fun horder => ?_
    obtain rfl := (l.namer_escapeFirst o).1 horder
    exact absurd ((python_isKeyword_format o).symm.trans (h .upperCamel "none")) Bool.noConfusion
  · rw [hevades.escape_eq_iff]
    constructor
    · rintro (heq | ⟨ha, heq⟩ | ⟨hb, heq⟩)
      · exact absurd heq hne
      · exact ⟨a, Namer.isKeyword_eq_true.2 ha, .inl ⟨rfl, heq⟩⟩
      · exact ⟨b, Namer.isKeyword_eq_true.2 hb, .inr ⟨rfl, heq⟩⟩
    · rintro ⟨k, hk, ⟨rfl, heq⟩ | ⟨rfl, heq⟩⟩
      · exact .inr (.inl ⟨Namer.isKeyword_eq_true.1 hk, heq⟩)
      · exact .inr (.inr ⟨Namer.isKeyword_eq_true.1 hk, heq⟩)
  · rintro rfl a b ha hb heq
    exact (CSharp.namer_marks o).escape_inj rfl ha hb heq

/-- In C# the word `class` is written as the text `@class` is, but not as the identifier `class_`. -/
theorem csharp_escape_class :
    (csharp.target {}).namer.escape "class" = (csharp.target {}).namer.escape "@class" ∧
    (csharp.target {}).namer.escape "class" ≠ (csharp.target {}).namer.escape "class_" ∧
    (csharp.target {}).namer.isKeyword ((csharp.target {}).namer.format .allLower "CLASS") = false := by
  obtain ⟨_, hformat, _, hmeet, hinj⟩ := escape_evades_reserved csharp {}
  refine ⟨?_, fun heq => ?_, hformat.2 rfl .allLower "CLASS"⟩
  · exact (hmeet "class" "@class" (by decide)).2 ⟨"class", by decide +kernel, .inl ⟨rfl, by decide⟩⟩
  · exact absurd (hinj rfl "class" "class_" (by decide) (by decide) heq) (by decide)

end Language

end FlatSchema

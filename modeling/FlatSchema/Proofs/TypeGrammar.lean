import FlatSchema.Proofs.TypeText

/-!
# The grammar of type expressions

A type expression, without the blanks around it, is a name, a vector `[E]` or an array `[E:N]`. Here the grammar is stated apart from
the reader, and so is what a name denotes: a built-in type, or else the definition that the longest beginning of the namespace makes
up a qualified name with. The reader accepts exactly these expressions and gives each the type that it denotes
(`TypeExpr.typeOf_eq_ok_iff`).
-/

namespace FlatSchema

/-! ## Numbers -/

/-- A text spells a number of some bits: decimal digits, one at least, and in front of them a plus sign or nothing. -/
def Text.Spells (bits : Nat) (s : List Char) (n : Nat) : Prop :=
  ∃ digits : List Char, (s = digits ∨ s = '+' :: digits) ∧ digits ≠ [] ∧ (∀ c ∈ digits, c.isDigit = true) ∧
    n = Nat.ofDigitChars 10 digits 0 ∧ n < Nat.pow 2 bits

/-- Digits are read as the number that they write. -/
theorem Text.readDigits?_eq_some_iff {s : List Char} {n : Nat} :
    readDigits? s = some n ↔ s ≠ [] ∧ (∀ c ∈ s, c.isDigit = true) ∧ n = Nat.ofDigitChars 10 s 0 := by
  simp only [readDigits?, natOfDigits, Option.ite_none_right_eq_some, Bool.and_eq_true, Bool.not_eq_true',
    List.isEmpty_eq_false_iff, List.all_eq_true, Option.some.injEq, and_assoc, eq_comm (a := n)]

/-- A natural number may have a plus sign in front. -/
theorem Text.readNat?_eq_some_iff {s : List Char} {n : Nat} :
    readNat? s = some n ↔ ∃ digits, (s = digits ∨ s = '+' :: digits) ∧ readDigits? digits = some n := by
  constructor
  · intro h
    unfold readNat? at h
    split at h
    next digits => exact ⟨digits, .inr rfl, h⟩
    next => exact ⟨s, .inl rfl, h⟩
  · rintro ⟨digits, rfl | rfl, h⟩
    · unfold readNat?
      split
      next rest =>
        -- A sign is no digit.
        exact absurd ((readDigits?_eq_some_iff.1 h).2.1 '+' List.mem_cons_self) (by decide)
      next => exact h
    · exact h

/-- A number is read if the text spells one that fits into the bits. -/
theorem readUnsigned?_eq_some_iff {bits n : Nat} {s : String} : readUnsigned? bits s = some n ↔ Text.Spells bits s.toList n := by
  simp only [readUnsigned?, Option.bind_eq_some_iff, Text.readNat?_eq_some_iff, Text.readDigits?_eq_some_iff,
    Option.ite_none_right_eq_some, Option.some.injEq, Text.Spells]
  constructor
  · rintro ⟨m, ⟨digits, hs, hne, hdigits, hm⟩, hlt, rfl⟩
    exact ⟨digits, hs, hne, hdigits, hm, hlt⟩
  · rintro ⟨digits, hs, hne, hdigits, hn, hlt⟩
    exact ⟨n, ⟨digits, hs, hne, hdigits, hn⟩, hlt, rfl⟩

/-! ## Shapes -/

namespace TypeExpr

/-- How expressions are written. An element may have blanks around it and is no vector or array itself; the last colon between the
brackets, if there is one, stands in front of the length of an array. -/
inductive Spelled : List Char → TypeExpr → Prop
  | name {s : List Char} (hname : s.head? ≠ some '[') : Spelled s (.name (String.ofList s))
  | vector {element : List Char} (hcolon : ':' ∉ element) (helement : (Text.trim element).head? ≠ some '[') :
    Spelled ('[' :: (element ++ [']'])) (.vector (String.ofList (Text.trim element)))
  | array {element length : List Char} {n : Nat} (hcolon : ':' ∉ length) (hlength : Text.Spells 16 (Text.trim length) n)
    (hpos : 0 < n) (helement : (Text.trim element).head? ≠ some '[') :
    Spelled ('[' :: (element ++ ':' :: length ++ [']'])) (.array (String.ofList (Text.trim element)) n)

/-- A character at the end is dropped. -/
theorem dropLast?_eq_some_iff {c : Char} {s rest : List Char} : dropLast? c s = some rest ↔ s = rest ++ [c] := by
  constructor
  · intro h
    simp only [dropLast?, Option.ite_none_right_eq_some, Option.some.injEq] at h
    obtain ⟨hlast, rfl⟩ := h
    obtain ⟨front, rfl⟩ := List.getLast?_eq_some_iff.1 hlast
    rw [List.dropLast_concat]
  · rintro rfl
    exact dropLast?_concat c rest

/-- A character of a text has a last occurrence. -/
theorem exists_last {c : Char} {s : List Char} (h : c ∈ s) : ∃ before after, s = before ++ c :: after ∧ c ∉ after := by
  obtain ⟨after, before, hreverse, hafter⟩ := List.eq_append_cons_of_mem (List.mem_reverse.2 h)
  refine ⟨before.reverse, after.reverse, ?_, fun hc => hafter (List.mem_reverse.1 hc)⟩
  rw [← List.reverse_reverse s, hreverse]
  simp

/-- A text is cut at the last occurrence of a character. -/
theorem splitLast?_eq_some_iff {c : Char} {s before after : List Char} :
    splitLast? c s = some (before, after) ↔ s = before ++ c :: after ∧ c ∉ after := by
  constructor
  · intro h
    by_cases hmem : c ∈ s
    · obtain ⟨before', after', rfl, hafter⟩ := exists_last hmem
      rw [splitLast?_append hafter] at h
      cases h
      exact ⟨rfl, hafter⟩
    · rw [splitLast?_of_not_mem hmem] at h
      cases h
  · rintro ⟨rfl, h⟩
    exact splitLast?_append h

/-- A text without the separator is not split. -/
theorem splitLast?_eq_none_iff {c : Char} {s : List Char} : splitLast? c s = none ↔ c ∉ s := by
  refine ⟨fun h hmem => ?_, splitLast?_of_not_mem⟩
  obtain ⟨before, after, rfl, hafter⟩ := exists_last hmem
  rw [splitLast?_append hafter] at h
  cases h

/-- An element is any text that opens no bracket, with the blanks around it dropped. -/
theorem readElement_eq_ok_iff {s : List Char} {e : String} :
    readElement s = .ok e ↔ (Text.trim s).head? ≠ some '[' ∧ e = String.ofList (Text.trim s) := by
  unfold readElement
  split
  next rest heq => simp [heq]
  next hname =>
    have hhead : (Text.trim s).head? ≠ some '[' := by
      intro hhead
      obtain ⟨rest, hrest⟩ := List.head?_eq_some_iff.1 hhead
      exact hname rest hrest
    simp [hhead, eq_comm]

/-- A length is a number of 16 bits that is not zero, with blanks around it. -/
theorem readLength_eq_ok_iff {s : List Char} {n : Nat} :
    readLength s = .ok n ↔ Text.Spells 16 (Text.trim s) n ∧ 0 < n := by
  have hread : ∀ m, readUnsigned? 16 (String.ofList (Text.trim s)) = some m ↔ Text.Spells 16 (Text.trim s) m := by
    intro m
    rw [readUnsigned?_eq_some_iff, String.toList_ofList]
  rw [← hread]
  unfold readLength
  split
  next hnone => simp [hnone]
  next hzero =>
    rw [hzero]
    constructor
    · intro h
      cases h
    · rintro ⟨h, hpos⟩
      cases h
      omega
  next m hm hsome =>
    have hpos : 0 < m := Nat.pos_of_ne_zero fun hzero => hm hzero
    rw [hsome]
    constructor
    · intro h
      cases h
      exact ⟨rfl, hpos⟩
    · rintro ⟨h, _⟩
      cases h
      rfl

/-- What spells an expression is read as it. -/
theorem Spelled.read {s : List Char} {e : TypeExpr} (h : Spelled s e) : read s = .ok e := by
  cases h with
  | name hname =>
    unfold TypeExpr.read
    split
    next inner => exact absurd rfl hname
    next => rfl
  | vector hcolon helement =>
    rw [TypeExpr.read, dropLast?_concat]
    dsimp only
    rw [splitLast?_of_not_mem hcolon, readElement_eq_ok_iff.2 ⟨helement, rfl⟩]
    rfl
  | array hcolon hlength hpos helement =>
    rw [TypeExpr.read, dropLast?_concat]
    dsimp only
    rw [splitLast?_append hcolon]
    dsimp only
    rw [readLength_eq_ok_iff.2 ⟨hlength, hpos⟩, readElement_eq_ok_iff.2 ⟨helement, rfl⟩]
    rfl

/-- What is read as an expression spells it. -/
theorem spelled_of_read {s : List Char} {e : TypeExpr} (h : read s = .ok e) : Spelled s e := by
  unfold read at h
  split at h
  next inner =>
    split at h
    next => cases h
    next inner hinner =>
      obtain rfl := dropLast?_eq_some_iff.1 hinner
      split at h
      next element length hsplit =>
        obtain ⟨rfl, hcolon⟩ := splitLast?_eq_some_iff.1 hsplit
        obtain ⟨n, hn, h⟩ := bind_eq_ok.1 h
        obtain ⟨name, hname, h⟩ := bind_eq_ok.1 h
        cases h
        obtain ⟨hlength, hpos⟩ := readLength_eq_ok_iff.1 hn
        obtain ⟨helement, rfl⟩ := readElement_eq_ok_iff.1 hname
        exact .array hcolon hlength hpos helement
      next hsplit =>
        obtain ⟨name, hname, h⟩ := bind_eq_ok.1 h
        cases h
        obtain ⟨helement, rfl⟩ := readElement_eq_ok_iff.1 hname
        exact .vector (splitLast?_eq_none_iff.1 hsplit) helement
  next hname =>
    cases h
    refine .name fun hhead => ?_
    obtain ⟨rest, rfl⟩ := List.head?_eq_some_iff.1 hhead
    exact hname rest rfl

/-- The reader accepts what is written so and nothing else. -/
theorem read_eq_ok_iff {s : List Char} {e : TypeExpr} : read s = .ok e ↔ Spelled s e := ⟨spelled_of_read, Spelled.read⟩

end TypeExpr

/-! ## Names -/

/-- A name used in a namespace leads to the definition whose qualified name the longest beginning of the namespace makes up with it,
of those for which there is one. -/
def NameTable.Innermost (names : NameTable) (scope : Namespace) (name : String) (ref : Ref) : Prop :=
  ∃ outer, outer <+: scope.components ∧ names.lookup (Namespace.qualify ⟨outer⟩ name ".") = some ref ∧
    ∀ inner, inner <+: scope.components → outer.length < inner.length → names.lookup (Namespace.qualify ⟨inner⟩ name ".") = none

/-- A name is found in the innermost namespace that has it. -/
theorem NameTable.find?_eq_some_iff_innermost {names : NameTable} {name : String} {scope : Namespace} {ref : Ref} :
    names.find? name scope = some ref ↔ names.Innermost scope name ref := by
  rw [find?_eq_some_iff]
  constructor
  · rintro ⟨n, hn, hlookup, hinner⟩
    refine ⟨scope.components.take n, List.take_prefix n _, hlookup, fun inner hprefix hlt => ?_⟩
    rw [List.length_take_of_le hn] at hlt
    rw [List.prefix_iff_eq_take.1 hprefix]
    exact hinner inner.length hlt hprefix.length_le
  · rintro ⟨outer, hprefix, hlookup, hinner⟩
    have houter := List.prefix_iff_eq_take.1 hprefix
    refine ⟨outer.length, hprefix.length_le, ?_, fun m hlt hm => ?_⟩
    · rw [candidate, ← houter]
      exact hlookup
    · exact hinner _ (List.take_prefix m _) (by rwa [List.length_take_of_le hm])

namespace TypeExpr

variable (names : NameTable) (enums : List EnumDef) (scope : Namespace)

/-- What a name denotes in a namespace. A built-in type comes before all definitions. -/
inductive Denotes : String → TypeDesc → Prop
  | builtin {name : String} {b : BaseType} (h : BaseType.builtin? name = some b) : Denotes name (.plain b)
  | record {name : String} {i : Nat} (hb : BaseType.builtin? name = none) (h : names.Innermost scope name (.struct i)) :
    Denotes name (.record i)
  | union {name : String} {i : Nat} {e : EnumDef} (hb : BaseType.builtin? name = none)
    (h : names.Innermost scope name (.enum i)) (he : enums[i]? = some e) (hu : e.isUnion = true) : Denotes name (.union i)
  | enumeration {name : String} {i : Nat} {e : EnumDef} (hb : BaseType.builtin? name = none)
    (h : names.Innermost scope name (.enum i)) (he : enums[i]? = some e) (hu : e.isUnion = false) :
    Denotes name (.enumeration e.underlying.base i)

/-- What an expression stands for: what its name denotes, a vector or an array of that. -/
inductive Means : TypeExpr → TypeDesc → Prop
  | name {e : String} {t : TypeDesc} (h : Denotes names enums scope e t) : Means (.name e) t
  | vector {e : String} {t : TypeDesc} (h : Denotes names enums scope e t) : Means (.vector e) t.vectorOf
  | array {e : String} {t : TypeDesc} {n : Nat} (h : Denotes names enums scope e t) : Means (.array e n) (t.arrayOf n)

variable {names enums scope}

/-- A name resolves to what it denotes. -/
theorem resolveName_eq_ok_iff {context name : String} {t : TypeDesc} :
    resolveName names enums scope context name = .ok t ↔ Denotes names enums scope name t := by
  rw [resolveName_eq_ok]
  constructor
  · rintro (⟨b, hb, rfl⟩ | ⟨hb, ref, hfind, htype⟩)
    · exact .builtin hb
    · rw [NameTable.find?_eq_some_iff_innermost] at hfind
      cases ref with
      | struct i =>
        cases htype
        exact .record hb hfind
      | enum i =>
        obtain ⟨e, he, rfl⟩ := Option.map_eq_some_iff.1 htype
        by_cases hu : e.isUnion = true
        · rw [if_pos hu]
          exact .union hb hfind he hu
        · rw [if_neg hu]
          exact .enumeration hb hfind he (by simpa using hu)
  · intro h
    cases h with
    | builtin hb => exact .inl ⟨_, hb, rfl⟩
    | record hb h => exact .inr ⟨hb, _, NameTable.find?_eq_some_iff_innermost.2 h, rfl⟩
    | union hb h he hu =>
      refine .inr ⟨hb, _, NameTable.find?_eq_some_iff_innermost.2 h, Option.map_eq_some_iff.2 ⟨_, he, ?_⟩⟩
      rw [if_pos hu]
    | enumeration hb h he hu =>
      refine .inr ⟨hb, _, NameTable.find?_eq_some_iff_innermost.2 h, Option.map_eq_some_iff.2 ⟨_, he, ?_⟩⟩
      rw [if_neg (by simp [hu])]

/-- An expression resolves to what it means. -/
theorem resolve_eq_ok_iff {context : String} {e : TypeExpr} {t : TypeDesc} :
    e.resolve names enums scope context = .ok t ↔ e.Means names enums scope t := by
  cases e with
  | name e =>
    rw [resolve, resolveName_eq_ok_iff]
    constructor
    · exact .name
    · rintro ⟨h⟩
      exact h
  | vector e =>
    simp only [resolve, bind_eq_ok, pure_eq_ok, resolveName_eq_ok_iff]
    constructor
    · rintro ⟨u, hu, rfl⟩
      exact .vector hu
    · intro h
      cases h with
      | vector h => exact ⟨_, h, rfl⟩
  | array e n =>
    simp only [resolve, bind_eq_ok, pure_eq_ok, resolveName_eq_ok_iff]
    constructor
    · rintro ⟨u, hu, rfl⟩
      exact .array hu
    · intro h
      cases h with
      | array h => exact ⟨_, h, rfl⟩

end TypeExpr

/-- The enums of a document are resolved place by place, and keep what types are made from. -/
theorem Resolve.enums_getElem? {names : NameTable} {doc : SchemaDoc} {enums : List EnumDef}
    (h : doc.enums.mapM (Resolve.enum names) = .ok enums) {i : Nat} {d : EnumDoc} (hd : doc.enums[i]? = some d) :
    ∃ e, enums[i]? = some e ∧ e.isUnion = d.isUnion ∧ Resolve.underlying d = .ok e.underlying.base := by
  obtain ⟨e, he, hres⟩ := mapM_getElem?_of_getElem? h hd
  obtain ⟨base, hbase, hres⟩ := bind_eq_ok.1 hres
  obtain ⟨vals, _, hres⟩ := bind_eq_ok.1 hres
  cases hres
  exact ⟨_, he, rfl, hbase⟩

/-- A text is accepted as a type exactly if it is, without the blanks around it, an expression of the grammar whose name denotes
something, and its type is then what the expression stands for. In the tables of a document, a qualified name leads to the one
definition that has it, and every enum and union is there. -/
theorem TypeExpr.typeOf_eq_ok_iff (names : NameTable) (enums : List EnumDef) (scope : Namespace) (context text : String)
    (t : TypeDesc) :
    (typeOf names enums scope context text = .ok t ↔
      ∃ e, Spelled (Text.trim text.toList) e ∧ e.Means names enums scope t) ∧
    ∀ doc, NameTable.ofDocument doc = .ok names → doc.enums.mapM (Resolve.enum names) = .ok enums →
      (∀ qualified ref, names.lookup qualified = some ref ↔ doc.qualifiedAt? ref = some qualified) ∧
      ∀ (i : Nat) (d : EnumDoc), doc.enums[i]? = some d →
        ∃ e : EnumDef, enums[i]? = some e ∧ e.isUnion = d.isUnion ∧ Resolve.underlying d = .ok e.underlying.base := by
  constructor
  · unfold typeOf
    cases hread : read (Text.trim text.toList) with
    | ok e =>
      dsimp only
      rw [hread]
      dsimp only
      rw [resolve_eq_ok_iff]
      constructor
      · exact fun h => ⟨e, read_eq_ok_iff.1 hread, h⟩
      · rintro ⟨e', hspelled, h⟩
        rw [← read_eq_ok_iff, hread] at hspelled
        cases hspelled
        exact h
    | error fault =>
      dsimp only
      rw [hread]
      constructor
      · intro h
        cases h
      · rintro ⟨e, hspelled, _⟩
        rw [← read_eq_ok_iff, hread] at hspelled
        cases hspelled
  · intro doc hnames henums
    exact ⟨fun _ _ => NameTable.lookup_eq_some_iff hnames, fun i d hd => Resolve.enums_getElem? henums hd⟩

/-- One name is declared in a namespace and in the one around it. -/
def layeredDoc : SchemaDoc where
  structs := [{ name := "Point", scope := "a" }, { name := "Point", scope := "a.b" }]

open TypeExpr in
theorem layeredDoc_typeOf : ∃ names,
    NameTable.ofDocument layeredDoc = .ok names ∧
    typeOf names [] ⟨["a", "b"]⟩ "" " [ Point :\t+03] " = .ok ((TypeDesc.record 1).arrayOf 3) ∧
    typeOf names [] ⟨["a", "c"]⟩ "" "[Point]" = .ok (TypeDesc.record 0).vectorOf := by
  refine ⟨_, rfl, (typeOf_eq_ok_iff _ _ _ _ _ _).1.2 ⟨.array "Point" 3, ?_, .array (.record rfl ?_)⟩,
    (typeOf_eq_ok_iff _ _ _ _ _ _).1.2 ⟨.vector "Point", ?_, .vector (.record rfl ?_)⟩⟩
  · show Spelled ('[' :: (" Point ".toList ++ ':' :: "\t+03".toList ++ [']'])) _
    exact .array (by decide) ⟨['0', '3'], .inr (by decide), by decide, List.all_eq_true.1 (by decide), by decide, by decide⟩ (by decide) (by decide)
  · refine ⟨["a", "b"], List.prefix_rfl, rfl, fun inner hprefix hlt => ?_⟩
    exact absurd hprefix.length_le (by simpa using hlt)
  · show Spelled ('[' :: ("Point".toList ++ [']'])) _
    exact .vector (by decide) (by decide)
  · refine ⟨["a"], by simp, rfl, fun inner hprefix hlt => ?_⟩
    have hinner : inner = ["a", "c"] := hprefix.eq_of_length_le hlt
    rw [hinner]
    rfl

end FlatSchema

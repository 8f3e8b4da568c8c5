import FlatSchema.Proofs.FilePaths
import FlatSchema.Proofs.MemberDefaults
import FlatSchema.Proofs.ReservedWords
import FlatSchema.Proofs.Total.Go
import FlatSchema.Proofs.UnionText

/-!
# The names of members in Go

The code of an enum declares a constant for every member, and a map from the constants to the names of the members. A map may not
name one number twice. Constants and keys are read back from the lines of the code, and the numbers of the keys are looked up among
the constants: they differ exactly if no two members have one value and no two constants have one name, as a reserved word and the
same word with an underscore have (`Schema.ofDocument_goKeys`).
-/

namespace FlatSchema

/-! ## Blocks of lines -/

namespace Code

/-- The lines of the first block that starts with one line and ends with another. -/
def blockLines (opening closing : String) (c : Code) : List String :=
  ((c.lineTexts.dropWhile (· != opening)).drop 1).takeWhile (· != closing)

/-- The lines of a block are those from its opening up to its closing line. -/
theorem blockLines_eq {opening closing : String} {c : Code} {before body after : List String}
    (hc : c.lineTexts = before ++ opening :: (body ++ closing :: after)) (hopening : opening ∉ before) (hclosing : closing ∉ body) :
    c.blockLines opening closing = body := by
  have hbefore : ∀ l ∈ before, (l != opening) = true := fun l hl => bne_iff_ne.2 fun heq => hopening (heq ▸ hl)
  have hbody : ∀ l ∈ body, (l != closing) = true := fun l hl => bne_iff_ne.2 fun heq => hclosing (heq ▸ hl)
  rw [blockLines, hc, List.dropWhile_append_of_pos hbefore, List.dropWhile_cons_of_neg (by simp), List.drop_one, List.tail_cons,
    List.takeWhile_append_of_pos hbody, List.takeWhile_cons_of_neg (by simp), List.append_nil]

/-- Indentation does not change the texts of lines. -/
theorem lineTexts_indented (c : Code) : (indented c).lineTexts = c.lineTexts := by
  show List.filterMap Step.lineText? (Step.indent :: (c ++ [Step.dedent])) = _
  rw [List.filterMap_cons_none rfl, List.filterMap_append]
  exact List.append_nil _

/-- A block has its head, the lines of its body, and its end. -/
theorem lineTexts_block (head : Phrase) (body : Code) (stop : String) :
    (block head body stop).lineTexts = head.text :: (body.lineTexts ++ [stop]) := by
  rw [block, nested, lineTexts_append, lineTexts_append, lineTexts_indented]
  rfl

theorem lineTexts_flatMap {α : Type} (f : α → Code) (xs : List α) :
    lineTexts (xs.flatMap f) = xs.flatMap fun x => (f x).lineTexts := List.filterMap_flatMap

end Code

namespace Go

/-! ## Constants and keys -/

/-- The name at the start of a line. -/
def nameOf (text : String) : String := String.ofList (text.toList.takeWhile isWordChar)

/-- The constant that a line declares: its name, and the number behind an equals sign and a blank. -/
def readConstant (text : String) : String × Option Int :=
  (nameOf text, Text.readInt? ((text.toList.dropWhile (· != '=')).drop 2))

/-- The constants that code declares. -/
def constants (c : Code) : List (String × Option Int) := (c.blockLines "const (" ")").map readConstant

/-- The line that starts the map of names of an enum type. -/
def mapHead (type : String) : String := s!"var EnumNames{type} = map[{type}]string\x7b"

/-- The keys of the map of names of an enum type. -/
def nameKeys (type : String) (c : Code) : List String := (c.blockLines (mapHead type) "\x7d").map nameOf

/-- The numbers of these keys: a name has the number of the constant that is declared by it. -/
def keyNumbers (type : String) (c : Code) : List (Option Int) :=
  (nameKeys type c).map fun key => ((constants c).find? fun k => k.1 == key).bind (·.2)

/-- The text of a line with a constant. -/
def constantLine (width : Nat) (type member number : String) : String :=
  (Phrase.padded member width ++ (s!" {type} = {number}" : Phrase)).text

/-- The text of a line of the map of names. -/
def keyLine (width : Nat) (member name : String) : String :=
  (Phrase.padded s!"{member}:" (width + 1) ++ (s!" \"{name}\"," : Phrase)).text

variable {member type : String}

/-- The name at the start of a line goes as far as characters of words do. -/
theorem nameOf_eq {text : String} {rest : List Char} (htext : text.toList = member.toList ++ rest)
    (hmember : ∀ c ∈ member.toList, isWordChar c = true) (hrest : ∀ c ∈ rest.head?, isWordChar c = false) :
    nameOf text = member := by
  rw [nameOf, htext, takeWhile_isWordChar hmember hrest, String.ofList_toList]

/-- A constant is written with its name first, padded with blanks. -/
theorem constantLine_toList (width : Nat) (type member number : String) :
    (constantLine width type member number).toList = member.toList ++ ' ' ::
      (List.replicate (width - member.length) ' ' ++ (type.toList ++ ' ' :: '=' :: ' ' :: number.toList)) := by
  have htext : constantLine width type member number =
      member ++ String.ofList (List.replicate (width - member.length) ' ') ++ (" " ++ type ++ " = " ++ number) := rfl
  have hblank : " ".toList = [' '] := by decide
  have hequals : " = ".toList = [' ', '=', ' '] := by decide
  rw [htext]
  simp only [String.toList_append, String.toList_ofList, hblank, hequals, List.append_assoc, List.cons_append, List.nil_append]
  rw [← List.singleton_append, ← List.append_assoc (List.replicate _ _), ← List.replicate_succ', List.replicate_succ]
  rfl

/-- A constant is read back from its line. -/
theorem readConstant_constantLine (hmember : ∀ c ∈ member.toList, isWordChar c = true)
    (htype : ∀ c ∈ type.toList, isWordChar c = true) (width : Nat) (number : String) :
    readConstant (constantLine width type member number) = (member, Text.readInt? number.toList) := by
  have hline := constantLine_toList width type member number
  have hword : ∀ c, isWordChar c = true → (c != '=') = true := by
    intro c hc
    refine bne_iff_ne.2 ?_
    rintro rfl
    exact absurd hc (by decide)
  have hbefore : ∀ c ∈ member.toList ++ ' ' :: (List.replicate (width - member.length) ' ' ++ (type.toList ++ [' '])),
      (c != '=') = true := by
    intro c hc
    simp only [List.mem_append, List.mem_cons, List.mem_replicate, List.not_mem_nil, or_false] at hc
    rcases hc with hc | rfl | ⟨_, rfl⟩ | hc | rfl
    · exact hword c (hmember c hc)
    · decide
    · decide
    · exact hword c (htype c hc)
    · decide
  have hsplit : (constantLine width type member number).toList =
      (member.toList ++ ' ' :: (List.replicate (width - member.length) ' ' ++ (type.toList ++ [' ']))) ++
        '=' :: ' ' :: number.toList := by
    rw [hline]
    simp
  rw [readConstant, nameOf_eq hline hmember (by simp [isWordChar]), hsplit, List.dropWhile_append_of_pos hbefore,
    List.dropWhile_cons_of_neg (by decide)]
  rfl

/-- No line with a constant opens a brace. -/
theorem brace_not_mem_constantLine (hmember : ∀ c ∈ member.toList, isWordChar c = true)
    (htype : ∀ c ∈ type.toList, isWordChar c = true) {number : String} {n : Int} (hnumber : Text.readInt? number.toList = some n)
    (width : Nat) : '\x7b' ∉ (constantLine width type member number).toList := by
  rw [constantLine_toList]
  intro hmem
  simp only [List.mem_append, List.mem_cons, List.mem_replicate] at hmem
  rcases hmem with hmem | heq | ⟨_, heq⟩ | hmem | heq | heq | heq | hmem
  · exact absurd (hmember _ hmem) (by decide)
  · exact absurd heq (by decide)
  · exact absurd heq (by decide)
  · exact absurd (htype _ hmem) (by decide)
  · exact absurd heq (by decide)
  · exact absurd heq (by decide)
  · exact absurd heq (by decide)
  · exact absurd ((Text.readInt?_chars hnumber).2 _ hmem) (by decide)

/-- The head of a map starts with the word for variables. -/
theorem head?_mapHead (type : String) : (mapHead type).toList.head? = some 'v' := by
  unfold mapHead
  rw [String.append_assoc, String.append_assoc, String.append_assoc, String.toList_append]
  rfl

/-- The head of a map opens a brace. -/
theorem brace_mem_mapHead (type : String) : '\x7b' ∈ (mapHead type).toList := by
  unfold mapHead
  rw [String.toList_append]
  exact List.mem_append_right _ (by decide)

/-- A line that does not start like it is no head of a map. -/
theorem mapHead_ne {text : String} (h : text.toList.head? ≠ some 'v') : mapHead type ≠ text := by
  rintro rfl
  exact h (head?_mapHead type)

/-- An entry is written with its key first. -/
theorem keyLine_toList (width : Nat) (member name : String) :
    ∃ rest, (keyLine width member name).toList = member.toList ++ ':' :: rest := by
  have htext : keyLine width member name = (member ++ ":") ++
      String.ofList (List.replicate (width + 1 - (member ++ ":").length) ' ') ++ (" \"" ++ name ++ "\",") := rfl
  have hcolon : ":".toList = [':'] := by decide
  rw [htext]
  simp only [String.toList_append, hcolon, List.append_assoc, List.singleton_append]
  exact ⟨_, rfl⟩

/-- The name at the start of an entry is its key. -/
theorem nameOf_keyLine (hmember : ∀ c ∈ member.toList, isWordChar c = true) (width : Nat) (name : String) :
    nameOf (keyLine width member name) = member := by
  obtain ⟨rest, hline⟩ := keyLine_toList width member name
  exact nameOf_eq hline hmember (by simp [isWordChar])

/-! ## The lines of an enum -/

/-- The lines with the constants of an enum. -/
def constantLines (n : Namer) (width : Nat) (e : EnumDef) : List String :=
  e.vals.map fun v => constantLine width (n.typeName e.name) (n.enumVariant e.name v.name) (e.valueText v.value)

/-- The lines of the map of names of an enum. -/
def keyLines (n : Namer) (width : Nat) (e : EnumDef) : List String :=
  e.vals.map fun v => keyLine width (n.enumVariant e.name v.name) v.name

/-- The lines of the code of an enum, up to the end of the map of names. -/
theorem lineTexts_enumType (site : Site) (e : EnumDef) :
    ∃ width after, (enumType site e).lineTexts =
      s!"type {site.namer.typeName e.name} {numberType e.underlying.base}" :: "" :: "const (" ::
        (constantLines site.namer width e ++ ")" :: "" :: mapHead (site.namer.typeName e.name) ::
          (keyLines site.namer width e ++ "\x7d" :: after)) := by
  unfold enumType constantLines keyLines
  simp only [Code.lineTexts_append, Code.lineTexts_block, Code.lineTexts_flatMap, List.flatMap_map, List.append_assoc,
    List.cons_append, List.nil_append]
  simp only [List.map_eq_flatMap]
  exact ⟨_, _, rfl⟩

/-- The code of an enum is its comment and its type, and perhaps an object. -/
theorem enumCode_eq_ok {site : Site} {e : EnumDef} {code : Code} (h : enumCode site e = .ok code) :
    ∃ object, code = docs e.doc ++ enumType site e ++ object := by
  unfold enumCode at h
  split at h
  · obtain ⟨object, _, h⟩ := bind_eq_ok.1 h
    cases h
    exact ⟨object, rfl⟩
  · cases h
    exact ⟨[], rfl⟩

/-- The lines of a definition, up to the end of the map of names: before the constants stand only the type and empty lines. -/
theorem lineTexts_define {o : Options} {env : Env} {state : FileState} {i : Nat} {e : EnumDef} {code : Code}
    (h : (target o).define env state (.enum i e) = .ok code) : ∃ width before after,
      (∀ l ∈ before, l.toList.head? = none ∨ l.toList.head? = some 't') ∧
      code.lineTexts = before ++ "const (" :: (constantLines env.namer width e ++ ")" :: "" ::
        mapHead (env.namer.typeName e.name) :: (keyLines env.namer width e ++ "\x7d" :: after)) := by
  obtain ⟨inner, hinner, h⟩ := bind_eq_ok.1 h
  obtain ⟨object, rfl⟩ := enumCode_eq_ok hinner
  obtain ⟨width, after, hlines⟩ := lineTexts_enumType { toEnv := env, here := state.current } e
  cases h
  refine ⟨width, (Code.when (state.emitted > 0) Code.blank).lineTexts ++
    [s!"type {env.namer.typeName e.name} {numberType e.underlying.base}", ""], after ++ object.lineTexts, ?_, ?_⟩
  · intro l hl
    rcases List.mem_append.1 hl with hl | hl
    · unfold Code.when at hl
      split at hl
      · rw [List.mem_singleton.1 hl]
        exact .inl rfl
      · cases hl
    · rcases List.mem_cons.1 hl with rfl | hl
      · right
        rw [String.toList_append, String.toList_append, String.toList_append, List.append_assoc, List.append_assoc]
        rfl
      · rw [List.mem_singleton.1 hl]
        exact .inl rfl
  · simp only [FileState.apart, Code.lineTexts_append, hlines, List.append_assoc, List.cons_append, List.nil_append]
    rfl

/-! ## The names of constants -/

theorem typeName_eq (o : Options) (name : String) : (namer o).typeName name = (namer o).escape name :=
  congrArg (namer o).escape (Case.keep_apply name)

/-- The name of a constant is that of its enum and that of its member, both escaped. -/
theorem enumVariant_eq (o : Options) (enum name : String) :
    (namer o).enumVariant enum name = (namer o).escape enum ++ (namer o).escape name := by
  rw [Namer.enumVariant, typeName_eq, show (namer o).variantSeparator = "" from rfl, String.append_empty]
  exact congrArg (_ ++ (namer o).escape ·) (Case.keep_apply name)

/-- Escaping brings in no characters other than those of words. -/
theorem isWordChar_escape (o : Options) {name : String} (h : isIdentifier name = true) :
    ∀ c ∈ ((namer o).escape name).toList, isWordChar c = true := by
  obtain ⟨_, _, _, hword⟩ := isIdentifier_chars h
  unfold Namer.escape
  split
  · intro c hc
    rw [String.toList_append, String.toList_append, List.mem_append, List.mem_append] at hc
    rcases hc with (hc | hc) | hc
    · cases hc
    · exact hword c hc
    · have hc : c ∈ "_".toList := hc
      rw [List.mem_singleton.1 hc]
      decide
  · exact hword

/-- The name of a type is made of the characters of words. -/
theorem isWordChar_typeName (o : Options) {name : String} (h : isIdentifier name = true) :
    ∀ c ∈ ((namer o).typeName name).toList, isWordChar c = true := by
  rw [typeName_eq]
  exact isWordChar_escape o h

/-- The name of a constant is made of the characters of words. -/
theorem isWordChar_enumVariant (o : Options) {enum name : String} (henum : isIdentifier enum = true) (hname : isIdentifier name = true) :
    ∀ c ∈ ((namer o).enumVariant enum name).toList, isWordChar c = true := by
  intro c hc
  rw [enumVariant_eq, String.toList_append, List.mem_append] at hc
  exact hc.elim (isWordChar_escape o henum c) (isWordChar_escape o hname c)

/-- Two names are written alike if they are the same, or if one is a reserved word and the other the word with an underscore. -/
theorem escape_eq_iff (o : Options) {a b : String} : (namer o).escape a = (namer o).escape b ↔
    a = b ∨ (a ∈ keywords ∧ b = a ++ "_") ∨ (b ∈ keywords ∧ a = b ++ "_") := by
  have hwrap : ∀ name, (namer o).wrap name = name ++ "_" := fun name => congrArg (· ++ "_") String.empty_append
  rw [(namer_marks o).evades.escape_eq_iff, hwrap, hwrap]
  rfl

/-- The constants of an enum have different names exactly if no member is a reserved word that another one has with an underscore. -/
theorem members_nodup_iff (o : Options) {e : EnumDef} (hnames : (e.vals.map (·.name)).Nodup) :
    (e.vals.map fun v => (namer o).enumVariant e.name v.name).Nodup ↔
      ∀ v ∈ e.vals, ∀ w ∈ e.vals, v.name ∈ keywords → w.name ≠ v.name ++ "_" := by
  have hmap : (e.vals.map fun v => (namer o).enumVariant e.name v.name) =
      (e.vals.map (·.name)).map ((namer o).enumVariant e.name) := by
    rw [List.map_map]
    rfl
  have hsame : ∀ a b, (namer o).enumVariant e.name a = (namer o).enumVariant e.name b ↔
      a = b ∨ (a ∈ keywords ∧ b = a ++ "_") ∨ (b ∈ keywords ∧ a = b ++ "_") := by
    intro a b
    rw [enumVariant_eq, enumVariant_eq, String.append_right_inj, escape_eq_iff]
  rw [hmap, List.nodup_map_iff_inj_on hnames]
  constructor
  · intro h v hv w hw hkeyword heq
    have hvw := h v.name (List.mem_map_of_mem hv) w.name (List.mem_map_of_mem hw) ((hsame _ _).2 (.inr (.inl ⟨hkeyword, heq⟩)))
    have hlength := congrArg String.length (hvw.trans heq)
    rw [String.length_append, show "_".length = 1 by decide] at hlength
    omega
  · intro h a ha b hb hab
    obtain ⟨v, hv, rfl⟩ := List.mem_map.1 ha
    obtain ⟨w, hw, rfl⟩ := List.mem_map.1 hb
    rcases (hsame _ _).1 hab with heq | ⟨hkeyword, heq⟩ | ⟨hkeyword, heq⟩
    · exact heq
    · exact absurd heq (h v hv w hw hkeyword)
    · exact absurd heq (h w hw v hv hkeyword)

/-- Numbers that are looked up by their names differ exactly if the names and the numbers do. -/
theorem lookups_nodup_iff {cs : List (String × Option Int)} :
    (cs.map fun c => (cs.find? fun k => k.1 == c.1).bind (·.2)).Nodup ↔ (cs.map (·.1)).Nodup ∧ (cs.map (·.2)).Nodup := by
  have hsame : (cs.map (·.1)).Nodup → (cs.map fun c => (cs.find? fun k => k.1 == c.1).bind (·.2)) = cs.map (·.2) := by
    intro hnames
    refine List.map_congr_left fun c hc => ?_
    rw [find?_of_nodup (f := Prod.fst) hnames hc]
    rfl
  constructor
  · intro h
    have hnames : (cs.map (·.1)).Nodup := by
      refine List.Nodup.of_map (fun name => (cs.find? fun k => k.1 == name).bind (·.2)) ?_
      rwa [List.map_map]
    exact ⟨hnames, hsame hnames ▸ h⟩
  · rintro ⟨hnames, hnumbers⟩
    exact hsame hnames ▸ hnumbers

/-! ## What is read back -/

section Define

variable {o : Options} {env : Env} {state : FileState} {i : Nat} {e : EnumDef} {code : Code}

/-- The constants of an enum are those of its members, with the numbers that they stand for. -/
theorem constants_define (hnamer : env.namer = namer o) (hname : isIdentifier e.name = true)
    (hvals : ∀ v ∈ e.vals, isIdentifier v.name = true) (h : (target o).define env state (.enum i e) = .ok code) :
    constants code =
      e.vals.map fun v => ((namer o).enumVariant e.name v.name, some (e.underlying.base.reading v.value)) := by
  obtain ⟨width, before, after, hbefore, hlines⟩ := lineTexts_define h
  have hopening : "const (" ∉ before := by
    intro hmem
    exact absurd (hbefore _ hmem) (by decide)
  have hclosing : ")" ∉ constantLines env.namer width e := by
    intro hmem
    obtain ⟨v, _, heq⟩ := List.mem_map.1 hmem
    have hequals : '=' ∈ ")".toList := by
      rw [← heq, constantLine_toList]
      simp
    exact absurd hequals (by decide)
  rw [constants, Code.blockLines_eq hlines hopening hclosing, constantLines, List.map_map, hnamer]
  refine List.map_congr_left fun v hv => ?_
  rw [Function.comp_apply, readConstant_constantLine (isWordChar_enumVariant o hname (hvals v hv)) (isWordChar_typeName o hname),
    EnumDef.readInt?_valueText]

/-- The keys of the map of names are the constants of the members. -/
theorem nameKeys_define (hnamer : env.namer = namer o) (hname : isIdentifier e.name = true)
    (hvals : ∀ v ∈ e.vals, isIdentifier v.name = true) (h : (target o).define env state (.enum i e) = .ok code) :
    nameKeys ((namer o).typeName e.name) code = e.vals.map fun v => (namer o).enumVariant e.name v.name := by
  obtain ⟨width, before, after, hbefore, hlines⟩ := lineTexts_define h
  rw [hnamer] at hlines
  have hlines' : code.lineTexts = (before ++ "const (" :: (constantLines (namer o) width e ++ [")", ""])) ++
      mapHead ((namer o).typeName e.name) :: (keyLines (namer o) width e ++ "\x7d" :: after) := by
    rw [hlines]
    simp
  have hopening : mapHead ((namer o).typeName e.name) ∉ before ++ "const (" :: (constantLines (namer o) width e ++ [")", ""]) := by
    intro hmem
    simp only [List.mem_append, List.mem_cons, List.not_mem_nil, or_false] at hmem
    rcases hmem with hmem | heq | hmem | heq | heq
    · have hhead := hbefore _ hmem
      rw [head?_mapHead] at hhead
      exact absurd hhead (by decide)
    · exact mapHead_ne (by decide) heq
    · obtain ⟨v, hv, heq⟩ := List.mem_map.1 hmem
      have hbrace := brace_not_mem_constantLine (isWordChar_enumVariant o hname (hvals v hv)) (isWordChar_typeName o hname)
        (EnumDef.readInt?_valueText (e := e) (v := v.value)) width
      rw [heq] at hbrace
      exact hbrace (brace_mem_mapHead _)
    · exact mapHead_ne (by decide) heq
    · exact mapHead_ne (by decide) heq
  have hclosing : "\x7d" ∉ keyLines (namer o) width e := by
    intro hmem
    obtain ⟨v, _, heq⟩ := List.mem_map.1 hmem
    obtain ⟨rest, hline⟩ := keyLine_toList width ((namer o).enumVariant e.name v.name) v.name
    have hcolon : ':' ∈ "\x7d".toList := by
      rw [← heq, hline]
      simp
    exact absurd hcolon (by decide)
  rw [nameKeys, Code.blockLines_eq hlines' hopening hclosing, keyLines, List.map_map]
  exact List.map_congr_left fun v hv => nameOf_keyLine (isWordChar_enumVariant o hname (hvals v hv)) _ _

end Define

/-- Numbers that are read are different where the values are. -/
theorem numbers_nodup_iff {e : EnumDef} (hint64 : ∀ v ∈ e.vals, IsInt64 v.value) :
    (e.vals.map fun v => some (e.underlying.base.reading v.value)).Nodup ↔ (e.vals.map (·.value)).Nodup := by
  have hmap : (e.vals.map fun v => some (e.underlying.base.reading v.value)) =
      (e.vals.map (·.value)).map fun n => some (e.underlying.base.reading n) := by
    rw [List.map_map]
    rfl
  rw [hmap]
  refine ⟨List.Nodup.of_map _, fun h => (List.nodup_map_iff_inj_on h).2 ?_⟩
  intro a ha b hb hab
  obtain ⟨v, hv, rfl⟩ := List.mem_map.1 ha
  obtain ⟨w, hw, rfl⟩ := List.mem_map.1 hb
  exact (BaseType.reading_inj (hint64 v hv) (hint64 w hw)).1 (Option.some.inj hab)

end Go

/-- The code of a loaded enum or union declares a constant for every member, with the number that the member stands for, and its map of
names has these constants as its keys. The keys have different numbers exactly if no two members have one value and no member is a
reserved word that another one has with an underscore. -/
theorem Schema.ofDocument_goKeys {doc : SchemaDoc} {s : Schema} (h : Schema.ofDocument doc = .ok s)
    {i : Nat} {e : EnumDef} (he : s.enums[i]? = some e) (o : Options) (state : FileState) :
    ∃ code, (Go.target o).define ((Go.target o).env s o) state (.enum i e) = .ok code ∧
      Go.constants code =
        e.vals.map (fun v => ((Go.namer o).enumVariant e.name v.name, some (e.underlying.base.reading v.value))) ∧
      Go.nameKeys ((Go.namer o).typeName e.name) code = (Go.constants code).map (·.1) ∧
      ((Go.keyNumbers ((Go.namer o).typeName e.name) code).Nodup ↔ (e.vals.map (·.value)).Nodup ∧
        ∀ v ∈ e.vals, ∀ w ∈ e.vals, v.name ∈ Go.keywords → w.name ≠ v.name ++ "_") := by
  obtain ⟨names, declared, hloaded⟩ := Schema.ofDocument_loaded h
  have hmem := List.mem_of_getElem? he
  have hreturns : Returns ((Go.target o).define ((Go.target o).env s o) state (.enum i e)) :=
    Go.returns_define o hloaded.closed state hmem
  obtain ⟨code, hcode⟩ := hreturns
  have hnames := Validity.checkNames_eq_ok.1 (Schema.validate_eq_ok.1 hloaded.valid).1
  have hconstants : Go.constants code = _ := Go.constants_define rfl (hnames.1 e hmem).1 (hnames.2.2.1 e hmem) hcode
  have hkeys : Go.nameKeys ((Go.namer o).typeName e.name) code = (Go.constants code).map (·.1) := by
    rw [hconstants, List.map_map]
    exact Go.nameKeys_define rfl (hnames.1 e hmem).1 (hnames.2.2.1 e hmem) hcode
  refine ⟨code, hcode, hconstants, hkeys, ?_⟩
  rw [Go.keyNumbers, hkeys, List.map_map]
  refine Go.lookups_nodup_iff.trans ?_
  rw [hconstants, List.map_map, List.map_map, and_comm]
  exact and_congr (Go.numbers_nodup_iff (hloaded.enum_isInt64 hmem))
    (Go.members_nodup_iff o (Schema.memberNames_nodup hloaded.valid hmem))

/-- An enum with reserved words among its members and the greatest number of 64 bits without a sign. -/
def reservedEnum : EnumDoc where
  name := "E"
  underlying := some "ulong"
  values := [{ name := "type", value := some 7 }, { name := "func" }, { name := "Last", value := some (-1) }]

/-- An enum whose names are reserved: keys and constants are escaped alike. -/
theorem reservedEnum_goKeys : ∃ s e code, Schema.ofDocument { enums := [reservedEnum] } = .ok s ∧ s.enums = [e] ∧
    (Go.target {}).define ((Go.target {}).env s {}) {} (.enum 0 e) = .ok code ∧
    Go.constants code = [("Etype_", some 7), ("Efunc_", some 8), ("ELast", some 18446744073709551615)] ∧
    (Go.keyNumbers "E" code).Nodup := by
  obtain ⟨s, hs, he⟩ := Schema.exists_ofDocument { enums := [reservedEnum] } (·.enums)
    [{ name := "E", underlying := .plain .ulong, vals := [{ name := "type", value := 7 }, { name := "func", value := 8 },
      { name := "Last", value := -1 }] }] (by decide +kernel)
  obtain ⟨code, hcode, hconstants, _, hiff⟩ := Schema.ofDocument_goKeys hs (i := 0) (by rw [he]; rfl) {} {}
  exact ⟨s, _, code, hs, he, hcode, hconstants.trans (by decide +kernel), hiff.2 (by decide +kernel)⟩

/-- An enum in which counting on runs into a value that was given before. -/
def aliasEnum : EnumDoc where
  name := "E"
  values := [{ name := "A", value := some 1 }, { name := "B", value := some 0 }, { name := "C" }]

/-- Two keys of one map have the same number. -/
theorem aliasEnum_goKeys : ∃ s e code, Schema.ofDocument { enums := [aliasEnum] } = .ok s ∧ s.enums = [e] ∧
    (Go.target {}).define ((Go.target {}).env s {}) {} (.enum 0 e) = .ok code ∧
    Go.nameKeys "E" code = ["EA", "EB", "EC"] ∧ Go.keyNumbers "E" code = [some 1, some 0, some 1] := by
  obtain ⟨s, hs, he⟩ := Schema.exists_ofDocument { enums := [aliasEnum] } (·.enums)
    [{ name := "E", underlying := .plain .int, vals := [{ name := "A", value := 1 }, { name := "B", value := 0 },
      { name := "C", value := 1 }] }] (by decide +kernel)
  have hreturns : ∀ e ∈ s.enums, Returns ((Go.target {}).define ((Go.target {}).env s {}) {} (.enum 0 e)) := by
    rw [he]
    intro e hmem
    rw [List.mem_singleton.1 hmem]
    exact ⟨_, rfl⟩
  obtain ⟨code, hcode⟩ := hreturns _ (he ▸ List.mem_cons_self)
  have hconstants : Go.constants code = [("EA", some 1), ("EB", some 0), ("EC", some 1)] :=
    (Go.constants_define rfl (by decide) (by decide) hcode).trans (by decide +kernel)
  have hkeys : Go.nameKeys "E" code = ["EA", "EB", "EC"] :=
    (Go.nameKeys_define rfl (by decide) (by decide) hcode).trans (by decide +kernel)
  refine ⟨s, _, code, hs, he, hcode, hkeys, ?_⟩
  rw [Go.keyNumbers, hkeys, hconstants]
  decide

end FlatSchema

import FlatSchema.Proofs.TypeText
import FlatSchema.Proofs.UnionMembers

/-!
# Unions in the schema language, numbered again

A union is written as its variants without their numbers. Whoever reads the text counts the variants from one. So the discriminants
are got back exactly if they are one, two, three and so on (`Schema.ofDocument_unionText`).
-/

namespace FlatSchema

/-! ## Lines -/

/-- The text of a line. -/
def Step.lineText? : Step → Option String
  | .line p => some p.text
  | _ => none

/-- The texts of the lines of code, comments apart. -/
def Code.lineTexts (c : Code) : List String := c.filterMap Step.lineText?

theorem Code.lineTexts_append (a b : Code) : (a ++ b).lineTexts = a.lineTexts ++ b.lineTexts := List.filterMap_append

/-- The word at the start of a text ends where the text goes on with another character. -/
theorem takeWhile_isWordChar {word rest : List Char} (hword : ∀ c ∈ word, isWordChar c = true)
    (hrest : ∀ c ∈ rest.head?, isWordChar c = false) : (word ++ rest).takeWhile isWordChar = word := by
  have hstop : rest.takeWhile isWordChar = [] := by
    cases rest with
    | nil => rfl
    | cons c s => exact List.takeWhile_cons_of_neg (by simp [hrest c rfl])
  rw [List.takeWhile_append_of_pos hword, hstop, List.append_nil]

namespace Fbs

/-- The lines between the head of a declaration and its end. -/
def memberLines (c : Code) : List String := c.lineTexts.tail.dropLast

/-- The member that a line declares: its name, and the number behind an equals sign if there is one. -/
def readMember (text : String) : MemberDoc where
  name := String.ofList (text.toList.takeWhile isWordChar)
  value := match text.toList.dropWhile (· != '=') with
    | [] => none
    | _ :: number => (readSigned? 64 (String.ofList (Text.trim (number.takeWhile (· != ','))))).map .ofInt

/-- A member without a number is read by its name. -/
theorem readMember_eq {name rest : String} (hname : isIdentifier name = true)
    (hrest : ∀ c ∈ rest.toList.head?, isWordChar c = false) (hplain : '=' ∉ rest.toList) : readMember (name ++ rest) = { name } := by
  obtain ⟨_, _, _, hword⟩ := isIdentifier_chars hname
  have htaken : (name ++ rest).toList.takeWhile isWordChar = name.toList := by
    rw [String.toList_append, takeWhile_isWordChar hword hrest]
  have hdropped : (name ++ rest).toList.dropWhile (· != '=') = [] := by
    refine List.dropWhile_eq_nil_iff.2 fun c hc => ?_
    rw [String.toList_append] at hc
    rcases List.mem_append.1 hc with hc | hc
    · have hne : c ≠ '=' := by
        rintro rfl
        exact absurd (hword _ hc) (by decide)
      simpa using hne
    · have hne : c ≠ '=' := by
        rintro rfl
        exact hplain hc
      simpa using hne
  unfold readMember
  rw [htaken, hdropped, String.ofList_toList]

example : (readMember "Red = -7,").name = "Red" ∧ (readMember "Red = -7,").value = some (-7) := by decide +kernel

/-- The text of a variant is its name, and behind it, if anything, the type of its payload. -/
theorem variantCode_eq_ok {env : Env} {e : EnumDef} {v : EnumVal} (hvalid : env.schema.validate = .ok ()) {code : Code}
    (h : variantCode env e v = .ok code) :
    ∃ rest : String, code = docs v.doc ++ Code.line (v.name ++ rest : String) ∧ (∀ c ∈ rest.toList.head?, isWordChar c = false) ∧
      '=' ∉ rest.toList := by
  unfold variantCode at h
  dsimp only at h
  split at h
  next hstruct =>
    obtain ⟨d, hd, h⟩ := bind_eq_ok.1 h
    cases h
    by_cases hsame : d.name = v.name ∧ d.scope = e.scope
    · refine ⟨",", ?_, ?_, by decide⟩
      · rw [if_pos hsame]
        simp [toString]
      · rintro c ⟨⟩
        decide
    · obtain ⟨i, _, hi⟩ := Schema.structOf?_eq_some.1 (Env.structOf_eq_ok.1 hd)
      have hat : env.schema.nameAt? (.struct i) = some (d.scope, d.name) := Option.map_eq_some_iff.2 ⟨d, hi, rfl⟩
      obtain ⟨hname, hscope⟩ := Schema.nameAt?_isIdentifier hvalid hat
      have htext : NameText (nameFrom e.scope d.scope d.name).toList := nameFrom_nameText hscope hname
      refine ⟨": " ++ nameFrom e.scope d.scope d.name ++ ",", ?_, ?_, ?_⟩
      · rw [if_neg hsame]
        simp [toString, String.append_assoc]
      · rw [String.toList_append, String.toList_append]
        rintro c ⟨⟩
        decide
      · have hequals := htext.not_mem (c := '=') (by decide)
        simpa using hequals
  next =>
    cases h
    refine ⟨": string,", ?_, ?_, by decide⟩
    · simp [toString, String.append_assoc]
    · rintro c ⟨⟩
      decide

/-- The line of a variant declares the variant without its number. -/
theorem variantCode_lineTexts {env : Env} {e : EnumDef} {v : EnumVal} (hvalid : env.schema.validate = .ok ())
    (hname : isIdentifier v.name = true) {code : Code} (h : variantCode env e v = .ok code) :
    code.lineTexts.map readMember = [{ name := v.name }] := by
  obtain ⟨rest, rfl, hrest, hplain⟩ := variantCode_eq_ok hvalid h
  have hlines : Code.lineTexts (docs v.doc ++ Code.line (v.name ++ rest : String)) = [v.name ++ rest] := rfl
  rw [hlines, List.map_singleton, readMember_eq hname hrest hplain]

/-- The lines of members are those between the braces. -/
theorem memberLines_braced (doc : List String) (head : Phrase) (body : Code) :
    memberLines (docs doc ++ Code.braced head body) = body.lineTexts := by
  have hindented : (Code.indented body).lineTexts = body.lineTexts := by
    show Code.lineTexts ((.indent :: body) ++ [.dedent]) = _
    rw [Code.lineTexts_append]
    exact List.append_nil _
  have hlines : (docs doc ++ Code.braced head body).lineTexts = (head.text ++ " \x7b") :: (body.lineTexts ++ ["\x7d"]) := by
    show (docs doc ++ ((Code.line (head ++ (" \x7b" : Phrase)) ++ Code.indented body) ++ Code.line "\x7d")).lineTexts = _
    simp only [Code.lineTexts_append, hindented]
    rfl
  rw [memberLines, hlines, List.tail_cons, List.dropLast_concat]

/-- The variants of a union are read back by their names. -/
theorem mapM_variantCode {env : Env} {e : EnumDef} (hvalid : env.schema.validate = .ok ()) {vs : List EnumVal}
    (hnames : ∀ v ∈ vs, isIdentifier v.name = true) : ∀ {codes : List Code}, vs.mapM (variantCode env e) = .ok codes →
    (Code.lineTexts codes.flatten).map readMember = vs.map fun v => { name := v.name } := by
  induction vs with
  | nil =>
    intro codes h
    cases h
    rfl
  | cons v vs ih =>
    intro codes h
    rw [List.mapM_cons] at h
    obtain ⟨first, hfirst, h⟩ := bind_eq_ok.1 h
    obtain ⟨rest, hrest, h⟩ := bind_eq_ok.1 h
    cases h
    have hline := variantCode_lineTexts hvalid (hnames v List.mem_cons_self) hfirst
    have hlines := ih (fun w hw => hnames w (List.mem_cons_of_mem v hw)) hrest
    rw [List.flatten_cons, Code.lineTexts_append, List.map_append, hline, hlines]
    rfl

/-- What is written for a union declares its variants in order and without numbers. -/
theorem enumCode_members {env : Env} {e : EnumDef} (hvalid : env.schema.validate = .ok ()) (hu : e.isUnion = true)
    (hnames : ∀ v ∈ e.vals, isIdentifier v.name = true) {code : Code} (h : enumCode env e = .ok code) :
    (memberLines code).map readMember = e.variants.map fun v => { name := v.name } := by
  unfold enumCode at h
  rw [if_pos hu] at h
  obtain ⟨codes, hcodes, h⟩ := bind_eq_ok.1 h
  cases h
  rw [memberLines_braced]
  exact mapM_variantCode hvalid (fun v hv => hnames v (EnumDef.mem_of_mem_variants hv)) hcodes

end Fbs

/-! ## Numbering -/

/-- Counting from one gives every declared variant its discriminant exactly if the discriminants count from one. -/
theorem numbering_iff {declared variants : List EnumVal} (hnames : (declared.map (·.name)).Nodup)
    (hvariants : variants = declared.filter fun v => !v.isZero) :
    (∀ v ∈ declared, (v.name, v.value) ∈
      (variants.map (·.name)).zip (countFrom 1 variants.length)) ↔
    declared.map (·.value) = countFrom 1 declared.length := by
  have hkeep : (∀ v ∈ declared, v.value ≠ 0) → variants = declared := by
    intro hnonzero
    rw [hvariants, filter_nonzero hnonzero]
  constructor
  · intro h
    -- no variant is left out: the numbers that are counted are not zero
    have hall : variants = declared := by
      refine hkeep fun v hv => ?_
      obtain ⟨k, _, hk⟩ := List.mem_map.1 (List.of_mem_zip (h v hv)).2
      omega
    rw [hall] at h
    -- the names are different, so that a name and its number are at the place of the variant
    have hplace : ∀ (k : Nat) v, declared[k]? = some v → v.value = 1 + k := by
      intro k v hv
      obtain ⟨j, hj⟩ := List.mem_iff_getElem?.1 (h v (List.mem_of_getElem? hv))
      obtain ⟨hname, hvalue⟩ := List.getElem?_zip_eq_some.1 hj
      have hk : (declared.map (·.name))[k]? = some v.name := by rw [List.getElem?_map, hv, Option.map_some]
      have hlt : k < (declared.map (·.name)).length := (List.getElem?_eq_some_iff.1 hk).1
      have hjk : k = j := (List.getElem?_inj hlt hnames).1 (hk.trans hname.symm)
      subst hjk
      rw [List.length_map] at hlt
      simpa [countFrom, hlt] using hvalue.symm
    refine List.ext_getElem (by simp [countFrom]) fun k hk _ => ?_
    rw [List.length_map] at hk
    simpa [countFrom] using hplace k _ (List.getElem?_eq_getElem hk)
  · intro h
    have hall : variants = declared := by
      refine hkeep fun v hv => ?_
      have hmem : v.value ∈ declared.map (·.value) := List.mem_map_of_mem hv
      rw [h] at hmem
      obtain ⟨k, _, hk⟩ := List.mem_map.1 hmem
      omega
    rw [hall, ← h, List.zip_map']
    exact fun v hv => List.mem_map_of_mem hv

/-- In a valid schema no two members of an enum have one name. -/
theorem Schema.memberNames_nodup {s : Schema} (h : s.validate = .ok ()) {e : EnumDef} (he : e ∈ s.enums) :
    (e.vals.map (·.name)).Nodup := by
  obtain ⟨low, high, _, hcheck⟩ := Validity.checkEnum_eq_ok.1 ((Schema.validate_eq_ok.1 h).2.1 e he)
  exact (Validity.checkMembers_eq_ok.1 hcheck).1

/-- What is written for a union can be read again: its lines declare the variants in order, and no line has a number. Counting them
gives every declared variant its discriminant exactly if the discriminants are one, two, three and so on. In a union without bit
flags this means that every number that was given is the place of its variant. -/
theorem Schema.ofDocument_unionText {doc : SchemaDoc} {s : Schema} (h : Schema.ofDocument doc = .ok s) {i : Nat} {e : EnumDef}
    (he : s.enums[i]? = some e) (hu : e.isUnion = true) {env : Env} (henv : env.schema = s) :
    ∃ d declared code, doc.enums[i]? = some d ∧ e.vals = { name := "NONE", value := 0 } :: declared ∧
      Fbs.enumCode env e = .ok code ∧
      let printed := (Fbs.memberLines code).map Fbs.readMember
      printed.map (·.name) = e.variants.map (·.name) ∧ (∀ m ∈ printed, m.value = none) ∧
      ((∀ v ∈ declared, (v.name, v.value) ∈ (printed.map (·.name)).zip (MemberDoc.numbers 1 printed)) ↔
        declared.map (·.value) = countFrom 1 declared.length) ∧
      (d.attributes.has "bit_flags" = false →
        (declared.map (·.value) = countFrom 1 declared.length ↔
          ∀ (k : Nat) m n, d.values[k]? = some m → m.number? = some n → n = 1 + k)) := by
  obtain ⟨names, structs, h⟩ := Schema.ofDocument_loaded h
  subst henv
  obtain ⟨d, hd, hresolve⟩ := (mapM_getElem? h.enums).2 i e he
  obtain ⟨declared, hvals, hdeclared, hvalues, _⟩ := Resolve.enum_variants hresolve hu
  have hmem := List.mem_of_getElem? he
  obtain ⟨code, hcode⟩ := Fbs.returns_enumCode h.closed hmem
  have hidentifiers : ∀ v ∈ e.vals, isIdentifier v.name = true :=
    (Validity.checkNames_eq_ok.1 (Schema.validate_eq_ok.1 h.valid).1).2.2.1 e hmem
  have hprinted := Fbs.enumCode_members h.valid hu hidentifiers hcode
  have hnone : ∀ m ∈ (Fbs.memberLines code).map Fbs.readMember, m.value = none := by
    intro m hm
    rw [hprinted] at hm
    obtain ⟨v, _, rfl⟩ := List.mem_map.1 hm
    rfl
  have hprintedNames : ((Fbs.memberLines code).map Fbs.readMember).map (·.name) = e.variants.map (·.name) := by
    rw [hprinted, List.map_map]
    rfl
  have hnumbers : MemberDoc.numbers 1 ((Fbs.memberLines code).map Fbs.readMember) = countFrom 1 e.variants.length := by
    rw [MemberDoc.numbers_of_none hnone, hprinted, List.length_map]
  have hnodup : (declared.map (·.name)).Nodup := by
    have hall := Schema.memberNames_nodup h.valid hmem
    rw [hvals, List.map_cons] at hall
    exact (List.nodup_cons.1 hall).2
  have hvariants : e.variants = declared.filter fun v => !v.isZero := EnumDef.variants_eq hvals
  refine ⟨d, declared, code, hd, hvals, hcode, hprintedNames, hnone, ?_, ?_⟩
  · rw [hprintedNames, hnumbers]
    exact numbering_iff hnodup hvariants
  · intro hflags
    have hlength : declared.length = d.values.length := by simpa using congrArg List.length hdeclared
    rw [hvalues, hlength]
    exact EnumDoc.counted_iff hflags

/-- The variants of the sample are read back with their numbers, counted from one. -/
theorem sampleDoc_unionText : ∃ s e, ∃ declared : List EnumVal, ∃ code, Schema.ofDocument sampleDoc = .ok s ∧
    s.enums[1]? = some e ∧ e.isUnion = true ∧ e.vals = { name := "NONE", value := 0 } :: declared ∧
    Fbs.enumCode ((Fbs.target {}).env s {}) e = .ok code ∧
    declared.map (fun v => (v.name, v.value)) = [("Monster", 1), ("Note", 2)] ∧
    let printed := (Fbs.memberLines code).map Fbs.readMember
    ∀ v ∈ declared, (v.name, v.value) ∈ (printed.map (·.name)).zip (MemberDoc.numbers 1 printed) := by
  obtain ⟨s, hs, hlook⟩ := Schema.exists_ofDocument sampleDoc
    (fun s => s.enums[1]?.map fun e : EnumDef => decide (e.isUnion = true ∧
      e.vals.tail.map (fun v => (v.name, v.value)) = [("Monster", 1), ("Note", 2)])) (some true) (by decide +kernel)
  obtain ⟨e, he, hlook⟩ := Option.map_eq_some_iff.1 hlook
  obtain ⟨hu, hpairs⟩ := of_decide_eq_true hlook
  have henv : ((Fbs.target {}).env s {}).schema = s := rfl
  obtain ⟨d, declared, code, hd, hvals, hcode, _, _, hiff, hplaces⟩ := Schema.ofDocument_unionText hs he hu henv
  have hnone : ∀ d ∈ sampleDoc.enums[1]?, d.attributes.has "bit_flags" = false ∧ ∀ m ∈ d.values, m.value = none := by decide
  obtain ⟨hflags, hnone⟩ := hnone d hd
  rw [hvals, List.tail_cons] at hpairs
  refine ⟨s, e, declared, code, hs, he, hu, hvals, hcode, hpairs, hiff.2 ((hplaces hflags).2 fun k m n hm hn => ?_)⟩
  rw [MemberDoc.number?, hnone m (List.mem_of_getElem? hm)] at hn
  cases hn

/-- The numbers of the variants are not written. -/
theorem numberedDoc_renumbered : ∃ s e code, Schema.ofDocument numberedDoc = .ok s ∧ s.enums[0]? = some e ∧
    Fbs.enumCode ((Fbs.target {}).env s {}) e = .ok code ∧
    e.vals.map (fun v => (v.name, v.value)) = [("NONE", 0), ("A", 5), ("B", 6), ("Text", 2)] ∧
    Fbs.memberLines code = ["A,", "B,", "Text: string,"] ∧
    let printed := (Fbs.memberLines code).map Fbs.readMember
    (printed.map (·.name)).zip (MemberDoc.numbers 1 printed) = [("A", 1), ("B", 2), ("Text", 3)] := by
  obtain ⟨s, hs, hlook⟩ := Schema.exists_ofDocument numberedDoc
    (fun s => s.enums[0]?.map fun e : EnumDef => decide (
      e.vals.map (fun v => (v.name, v.value)) = [("NONE", 0), ("A", 5), ("B", 6), ("Text", 2)] ∧
      (Fbs.enumCode ((Fbs.target {}).env s {}) e).toOption.map Fbs.memberLines = some ["A,", "B,", "Text: string,"]))
    (some true) (by decide +kernel)
  obtain ⟨e, he, hlook⟩ := Option.map_eq_some_iff.1 hlook
  obtain ⟨hvals, hlines⟩ := of_decide_eq_true hlook
  cases hcode : Fbs.enumCode ((Fbs.target {}).env s {}) e with
  | error _ =>
    rw [hcode] at hlines
    cases hlines
  | ok code =>
    rw [hcode] at hlines
    have hlines : Fbs.memberLines code = ["A,", "B,", "Text: string,"] := Option.some.inj hlines
    refine ⟨s, e, code, hs, he, hcode, hvals, hlines, ?_⟩
    rw [hlines]
    decide +kernel

end FlatSchema

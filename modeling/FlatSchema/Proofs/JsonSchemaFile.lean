import FlatSchema.Proofs.JsonSchemaReferences
import FlatSchema.Proofs.WriterText

/-!
# The file of a JSON Schema

The file is written in pieces: a header, the definitions one after the other with commas between them, and a footer. Put together
they are the text of one JSON document (`JsonSchema.document`), so that the file is read as this document
(`Schema.ofDocument_jsonSchema`).
-/

namespace FlatSchema

namespace JsonSchema

open Json

/-! ## Texts moved to the right -/

/-- Blanks are put behind every line break. -/
theorem deeper_toList (blanks text : String) :
    (deeper blanks text).toList = text.toList.flatMap fun c => if c = '\n' then '\n' :: blanks.toList else [c] := by
  have hjoin : ∀ s : List Char, ('\n' :: blanks.toList).intercalate (s.splitOn '\n') =
      s.flatMap fun c => if c = '\n' then '\n' :: blanks.toList else [c] := by
    intro s
    induction s with
    | nil => rfl
    | cons c s ih =>
      obtain ⟨first, rest, hsplit⟩ := List.exists_cons_of_ne_nil (List.splitOn_ne_nil '\n' s)
      rw [hsplit] at ih
      rw [List.splitOn_cons_eq_if_modifyHead, List.flatMap_cons, ← ih, hsplit]
      by_cases hc : c = '\n'
      · simp [hc]
      · cases rest <;> simp [hc]
  rw [← hjoin, deeper, String.toList_intercalate, List.map_map]
  simp [String.toList_append]

variable {blanks : String}

/-- Two texts are moved to the right one by one. -/
theorem deeper_append (a b : String) : deeper blanks (a ++ b) = deeper blanks a ++ deeper blanks b := by
  rw [← String.toList_inj, String.toList_append, deeper_toList, deeper_toList, deeper_toList, String.toList_append,
    List.flatMap_append]

/-- A text of one line is not moved: its line begins elsewhere. -/
theorem deeper_of_not_mem {s : String} (h : '\n' ∉ s.toList) : deeper blanks s = s := by
  unfold deeper
  rw [List.splitOn_eq_singleton h, List.map_singleton, String.ofList_toList, String.intercalate_singleton]

/-- A line break of the printer goes two levels deeper. -/
theorem deeper_newline (depth : Nat) : deeper "    " (newline depth) = newline (depth + 2) := by
  have hcut : newline depth = "\n" ++ String.ofList (List.replicate (2 * depth) ' ') := by
    rw [newline, String.ofList_cons]
    rfl
  have hblanks : '\n' ∉ (String.ofList (List.replicate (2 * depth) ' ')).toList := by
    rw [String.toList_ofList]
    exact fun h => absurd (List.eq_of_mem_replicate h) (by decide)
  have hbreak : deeper "    " "\n" = "\n    " := by decide
  rw [hcut, deeper_append, deeper_of_not_mem hblanks, hbreak, ← String.toList_inj, newline, String.toList_append,
    String.toList_ofList, String.toList_ofList, Nat.mul_add, Nat.add_comm, List.replicate_add, String.toList_ofList]
  rfl

/-- Items with a separator between them are moved one by one. -/
theorem deeper_intercalate (sep : String) : ∀ items : List String,
    deeper blanks (sep.intercalate items) = (deeper blanks sep).intercalate (items.map (deeper blanks)) := by
  intro items
  induction items with
  | nil => exact deeper_of_not_mem nofun
  | cons a rest ih =>
    cases rest with
    | nil => simp
    | cons b rest =>
      rw [String.intercalate_cons_cons, deeper_append, deeper_append, ih]
      simp only [List.map_cons, String.intercalate_cons_cons]

/-- A line break is escaped. -/
theorem escapeChar_not_break (c : Char) : '\n' ∉ escapeChar c := by
  have hdigit : ∀ n < 16, hexDigit n ≠ '\n' := by decide
  unfold escapeChar
  split_ifs with _ _ hbreak
  all_goals simp
  · exact ⟨(hdigit _ (by omega)).symm, (hdigit _ (by omega)).symm⟩
  · exact fun h => hbreak h.symm

/-- A text in quotes is of one line. -/
theorem quote_not_break (t : String) : '\n' ∉ (quote t).toList := by
  rw [quote_toList]
  simp [escapeChar_not_break]

/-- A number is of one line. -/
theorem toString_not_break (v : Int) : '\n' ∉ (toString v).toList := by
  intro h
  rcases toString_chars v '\n' h with hdigit | hminus
  · exact absurd hdigit (by decide)
  · exact absurd hminus (by decide)

/-- Items in brackets go two levels deeper. -/
theorem deeper_bracketed {opening closing : String} (ho : '\n' ∉ opening.toList) (hc : '\n' ∉ closing.toList) (depth : Nat)
    (items : List String) : deeper "    " (bracketed opening closing depth items) =
      bracketed opening closing (depth + 2) (items.map (deeper "    ")) := by
  have hcomma : '\n' ∉ ",".toList := by decide
  unfold bracketed
  by_cases hempty : items.isEmpty = true
  · simp only [List.isEmpty_map, hempty, if_true, deeper_append, deeper_of_not_mem ho, deeper_of_not_mem hc]
  · simp only [List.isEmpty_map, hempty, if_false, Bool.false_eq_true, deeper_append, deeper_intercalate, deeper_newline,
      deeper_of_not_mem ho, deeper_of_not_mem hc, deeper_of_not_mem hcomma, Nat.add_right_comm _ 1 2]

/-- A value that is printed and moved to the right is the value printed two levels deeper. -/
theorem deeper_prettyAt {P : String → Json → Prop} {n : Nat} {v : Json} (h : Shaped P n v) :
    ∀ depth, deeper "    " (prettyAt depth v) = prettyAt (depth + 2) v := by
  induction h with
  | null =>
    intro depth
    exact deeper_of_not_mem (s := "null") (by decide)
  | bool b =>
    intro depth
    exact deeper_of_not_mem (s := if b then "true" else "false") (by cases b <;> decide)
  | int hv => exact fun _ => deeper_of_not_mem (toString_not_break _)
  | string t => exact fun _ => deeper_of_not_mem (quote_not_break t)
  | array _ ih =>
    intro depth
    rw [prettyAt, prettyItems_eq, deeper_bracketed (by decide) (by decide), List.map_map, prettyAt, prettyItems_eq]
    refine congrArg _ (List.map_congr_left fun v hv => ?_)
    rw [Function.comp_apply, ih v hv, Nat.add_right_comm]
  | object _ _ ih =>
    have hcolon : '\n' ∉ ": ".toList := by decide
    intro depth
    rw [prettyAt, prettyMembers_eq, deeper_bracketed (by decide) (by decide), List.map_map, prettyAt, prettyMembers_eq]
    refine congrArg _ (List.map_congr_left fun m hm => ?_)
    rw [Function.comp_apply, deeper_append, deeper_append, deeper_of_not_mem (quote_not_break m.1), deeper_of_not_mem hcolon,
      ih m hm, Nat.add_right_comm]

/-! ## The text of the definitions -/

/-- The text of a member of the definitions. -/
def memberText (m : String × Json) : String := "    " ++ (quote m.1 ++ ": " ++ prettyAt 2 m.2)

/-- A body holds members and nothing else. -/
structure Wrote (ms : List (String × Json)) (b : Target.Body) : Prop where
  emitted : b.state.emitted = ms.length
  plain : ∀ step ∈ b.code, step.Plain
  text : b.code.text = ",\n".intercalate (ms.map memberText)

section Body

variable {o : Options} {env : Env} {P : String → Json → Prop} {n : Nat}

theorem target_move (m : Transition) : (target o).move env m = [] := by
  simp [Target.move, target]

/-- The code of a definition is the entry of its schema. -/
theorem define_eq (state : FileState) (d : Definition) : (target o).define env state d =
    definitionSchema env d >>= fun j => pure (entry env state d.scope d.name j) := by
  cases d with
  | enum i e => rfl
  | struct i d => exact ite_self _

/-- The code of a definition is its member, after a comma if it is not the first. -/
theorem define_eq_ok {state : FileState} {d : Definition} {code : Code}
    (hshape : ∀ j, definitionSchema env d = .ok j → Shaped P n j) (h : (target o).define env state d = .ok code) :
    ∃ m, member env d = .ok m ∧ (∀ step ∈ code, step.Plain) ∧ code.imports = [] ∧
      code.text = (if state.emitted = 0 then "" else ",\n") ++ memberText m := by
  rw [define_eq] at h
  obtain ⟨j, hj, h⟩ := bind_eq_ok.1 h
  cases h
  have hdeeper : deeper "    " j.pretty = prettyAt 2 j := deeper_prettyAt (hshape j hj) 0
  refine ⟨_, bind_eq_ok.2 ⟨j, hj, rfl⟩, ?_⟩
  simp only [entry, FileState.apart, Code.when]
  rw [hdeeper, memberText]
  by_cases hfirst : state.emitted = 0
  · simp [hfirst, Step.Plain, Code.imports, Step.imports, Code.text, Step.text, toString, String.append_assoc]
  · have hpos : state.emitted > 0 := Nat.pos_of_ne_zero hfirst
    simp [hfirst, hpos, Step.Plain, Code.imports, Step.imports, Code.text, Step.text, toString, String.append_assoc]

/-- A definition adds its member. -/
theorem Wrote.add {ms : List (String × Json)} {b b' : Target.Body} (hb : Wrote ms b) {d : Definition}
    (hshape : ∀ j, definitionSchema env d = .ok j → Shaped P n j) (h : (target o).addDefinition env b d = .ok b') :
    ∃ m, member env d = .ok m ∧ Wrote (ms ++ [m]) b' := by
  obtain ⟨code, hcode, h⟩ := bind_eq_ok.1 h
  obtain ⟨m, hm, hplain, himports, htext⟩ := define_eq_ok hshape hcode
  rw [himports, target_move, List.append_nil] at h
  cases h
  refine ⟨m, hm, ?_, ?_, ?_⟩
  · rw [List.length_append, ← hb.emitted]
    rfl
  · intro step hstep
    rcases List.mem_append.1 hstep with hstep | hstep
    · exact hb.plain step hstep
    · exact hplain step hstep
  · show (b.code ++ code).text = _
    have hemitted : b.state.emitted = ms.length := hb.emitted
    rw [Code.text_append, htext, hb.text, hemitted]
    cases ms with
    | nil => simp
    | cons m' ms =>
      rw [List.map_append, String.intercalate_append_of_ne_nil (by simp) (by simp)]
      simp [String.append_assoc]

/-- The definitions add their members one after the other. -/
theorem Wrote.addAll {ds : List Definition} (hshape : ∀ d ∈ ds, ∀ j, definitionSchema env d = .ok j → Shaped P n j) :
    ∀ {ms : List (String × Json)} {b b' : Target.Body}, Wrote ms b → ds.foldlM ((target o).addDefinition env) b = .ok b' →
    ∃ later, ds.mapM (member env) = .ok later ∧ Wrote (ms ++ later) b' := by
  induction ds with
  | nil =>
    intro ms b b' hb h
    cases h
    exact ⟨[], rfl, by rwa [List.append_nil]⟩
  | cons d ds ih =>
    intro ms b b' hb h
    rw [List.foldlM_cons] at h
    obtain ⟨next, hnext, h⟩ := bind_eq_ok.1 h
    obtain ⟨m, hm, hwrote⟩ := hb.add (hshape d List.mem_cons_self) hnext
    obtain ⟨later, hlater, hwrote⟩ := ih (fun d hd => hshape d (List.mem_cons_of_mem _ hd)) hwrote h
    refine ⟨m :: later, ?_, by rwa [List.append_assoc] at hwrote⟩
    rw [List.mapM_cons]
    exact bind_eq_ok.2 ⟨m, hm, bind_eq_ok.2 ⟨later, hlater, rfl⟩⟩

end Body

/-! ## The text of the file -/

/-- Blanks in front of each item are blanks in front of all and behind each separator. -/
theorem intercalate_map_append (blanks separator : String) : ∀ {items : List String}, items ≠ [] →
    separator.intercalate (items.map (blanks ++ ·)) = blanks ++ (separator ++ blanks).intercalate items := by
  intro items hne
  induction items with
  | nil => exact absurd rfl hne
  | cons a rest ih =>
    cases rest with
    | nil => simp
    | cons b rest =>
      have hrest := ih (List.cons_ne_nil b rest)
      rw [List.map_cons] at hrest
      simp only [List.map_cons, String.intercalate_cons_cons, hrest, String.append_assoc]

/-- The text of the definitions, two blanks deep in the document. -/
theorem prettyAt_definitions (ms : List (String × Json)) : prettyAt 1 (.object ms) =
    "\x7b" ++ (if ms = [] then "" else "\n" ++ ",\n".intercalate (ms.map memberText) ++ "\n  ") ++ "\x7d" := by
  by_cases hms : ms = []
  · rw [hms, prettyAt, prettyMembers]
    rfl
  · have hnewline : newline 2 = "\n" ++ "    " := by decide
    have houter : newline 1 = "\n  " := by decide
    have htexts : ms.map memberText = (prettyMembers 2 ms).map ("    " ++ ·) := by
      rw [prettyMembers_eq, List.map_map]
      rfl
    have hne : prettyMembers 2 ms ≠ [] := by
      rw [prettyMembers_eq]
      simpa using hms
    have hempty : (prettyMembers 2 ms).isEmpty = false := by simpa using hne
    rw [prettyAt, bracketed, if_neg (by simp [hempty]), if_neg hms, htexts, intercalate_map_append _ _ hne, hnewline, houter]
    have hseparator : "," ++ ("\n" ++ "    ") = ",\n" ++ "    " := by decide
    simp only [String.append_assoc, hseparator]

/-- A text that stands in a string literal as it is. -/
def Unescaped (t : String) : Prop := ∀ c ∈ t.toList, escapeChar c = [c]

namespace Unescaped

variable {t : String}

/-- A text without characters to escape is itself between quotes. -/
theorem quote_eq (h : Unescaped t) : quote t = "\"" ++ t ++ "\"" := by
  have hchars : t.toList.flatMap escapeChar = t.toList := by
    rw [List.flatMap_congr h, List.flatMap_singleton']
  rw [← String.toList_inj, quote_toList, hchars]
  simp

theorem not_break (h : Unescaped t) : '\n' ∉ t.toList := fun hmem => absurd (h _ hmem) (by decide)

end Unescaped

/-- The header is made of lines only. -/
theorem header_plain (state : FileState) : ∀ step ∈ header state, step.Plain := by
  unfold header
  by_cases hfirst : state.emitted = 0
  · rw [if_pos hfirst]
    decide +kernel
  · rw [if_neg hfirst]
    decide +kernel

/-- The text of the header. -/
theorem header_text (state : FileState) : (header state).text =
    "\x7b\n  \"$schema\": " ++ quote draft ++ ",\n  \"definitions\": \x7b" ++ (if state.emitted = 0 then "" else "\n") := by
  unfold header
  by_cases hfirst : state.emitted = 0
  · rw [if_pos hfirst, if_pos hfirst]
    decide +kernel
  · rw [if_neg hfirst, if_neg hfirst]
    decide +kernel

/-- The text of the reference to the root. -/
def rootText (env : Env) : String :=
  match env.schema.rootStruct? with
  | some d => ",\n  \"$ref\": " ++ quote (path env d.scope d.name)
  | none => ""

section Footer

variable {env : Env} (hroot : ∀ d, env.schema.rootStruct? = some d → Unescaped (path env d.scope d.name))
include hroot

/-- The footer is made of lines only. -/
theorem footer_plain (state : FileState) : ∀ step ∈ footer env state, step.Plain := by
  intro step hstep
  unfold footer at hstep
  rcases List.mem_append.1 hstep with hstep | hstep
  · rcases List.mem_append.1 hstep with hstep | hstep
    · split at hstep
      · rw [List.mem_singleton.1 hstep]
        trivial
      · cases hstep
    · split at hstep
      next d hd =>
        rcases List.mem_cons.1 hstep with rfl | hstep
        · trivial
        · -- the line of the reference ends with a quotation mark
          have hline : ("  \"$ref\": \"" ++ path env d.scope d.name ++ "\"").toList =
              "  \"$ref\": \"".toList ++ (path env d.scope d.name).toList ++ ['"'] := by
            rw [String.toList_append, String.toList_append]
            rfl
          rw [List.mem_singleton.1 hstep]
          show _ ∉ ("  \"$ref\": \"" ++ path env d.scope d.name ++ "\"").toList ∧
            ("  \"$ref\": \"" ++ path env d.scope d.name ++ "\"").toList.getLast? ≠ _
          rw [hline, List.getLast?_concat]
          exact ⟨by simp [(hroot d hd).not_break], by decide⟩
      next =>
        rw [List.mem_singleton.1 hstep]
        trivial
  · rw [List.mem_singleton.1 hstep]
    simp [Step.Plain]

/-- The text of the footer. -/
theorem footer_text (state : FileState) : (footer env state).text =
    (if state.emitted = 0 then "" else "\n  ") ++ "\x7d" ++ rootText env ++ "\n\x7d\n" := by
  have hgap : Code.text (if state.emitted > 0 then [.raw "\n  "] else []) = if state.emitted = 0 then "" else "\n  " := by
    by_cases hfirst : state.emitted = 0
    · simp [hfirst, Code.text]
    · have hpos : state.emitted > 0 := Nat.pos_of_ne_zero hfirst
      simp [hfirst, hpos, Code.text, Step.text]
  unfold footer rootText
  rw [Code.text_append, Code.text_append, hgap]
  cases hd : env.schema.rootStruct? with
  | none =>
    dsimp only
    rw [← String.toList_inj]
    simp [Code.text, Step.text, Code.line]
  | some d =>
    dsimp only
    rw [(hroot d hd).quote_eq, ← String.toList_inj]
    simp [Code.text, Step.text, Code.line, toString]

end Footer

/-- The text of the document, piece by piece. -/
theorem document_text (env : Env) (ms : List (String × Json)) : (document env ms).pretty ++ "\n" =
    "\x7b\n  \"$schema\": " ++ quote draft ++ ",\n  \"definitions\": " ++ prettyAt 1 (.object ms) ++
      rootText env ++ "\n\x7d\n" := by
  have hkeys : quote "$schema" = "\"$schema\"" ∧ quote "definitions" = "\"definitions\"" ∧ quote "$ref" = "\"$ref\"" := by
    decide +kernel
  have hnewline : newline 1 = "\n  " ∧ newline 0 = "\n" := by decide
  unfold document pretty rootText
  cases env.schema.rootStruct? with
  | none =>
    rw [List.append_nil, prettyAt, prettyMembers_eq, ← String.toList_inj]
    simp [bracketed, prettyAt, hkeys, hnewline]
  | some d =>
    rw [prettyAt, prettyMembers_eq, ← String.toList_inj]
    simp [bracketed, prettyAt, hkeys, hnewline]

/-! ## The whole file -/

/-- Places do not matter for what is made of definitions one by one. -/
theorem mapM_zipIdx {α β : Type} (p : α → Bool) (f : α → Except GenError β) (l : List α) :
    (l.zipIdx.filter fun x => p x.1).mapM (fun x => f x.1) = (l.filter p).mapM f := by
  have hfst : (l.zipIdx.filter fun x => p x.1).map Prod.fst = l.filter p := by
    conv_rhs => rw [← List.zipIdx_map_fst 0 l, List.filter_map]
    rfl
  rw [← hfst, List.mapM_map]
  rfl

/-- The members for the definitions: those of enums and unions, then those of structs and tables. -/
theorem mapM_member {env : Env} {ms : List (String × Json)} (h : env.schema.definitions.mapM (member env) = .ok ms) :
    ∃ objects, (env.schema.structs.filter fun d => !d.generated).mapM (structMember env) = .ok objects ∧
      ms = enumMembers env ++ objects := by
  unfold Schema.definitions at h
  rw [List.mapM_append, List.mapM_map, List.mapM_map] at h
  obtain ⟨enums, henums, h⟩ := bind_eq_ok.1 h
  obtain ⟨objects, hobjects, h⟩ := bind_eq_ok.1 h
  cases h
  have henums : (env.schema.enums.filter fun e => !e.generated).mapM
      (fun e => (pure (env.namer.scopedType e.scope e.name, enumSchema e) : Except GenError _)) = .ok enums :=
    (mapM_zipIdx _ _ _).symm.trans henums
  refine ⟨objects, (mapM_zipIdx _ _ _).symm.trans hobjects, ?_⟩
  rw [List.mapM_pure] at henums
  cases henums
  rfl

/-- The characters of words are not escaped. -/
theorem escapeChar_of_isWordChar {c : Char} (h : isWordChar c = true) : escapeChar c = [c] := by
  have hrange := isWordChar_range h
  have hlow : ∀ d : Char, d.toNat < 48 → c ≠ d := by
    rintro d hd rfl
    omega
  have hback : c ≠ '\\' := by
    rintro rfl
    exact absurd h (by decide)
  unfold escapeChar
  rw [if_neg (hlow '"' (by decide)), if_neg hback, if_neg (hlow '\n' (by decide)), if_neg (hlow '\t' (by decide)),
    if_neg (hlow '\r' (by decide)), if_neg (by omega), if_neg (by omega), if_neg (by omega)]

section File

variable {doc : SchemaDoc} {names : NameTable} {declared : List StructDef} {s : Schema} {o : Options}

/-- The path of a definition needs no escapes. -/
theorem path_unescaped (h : Loaded doc names declared s) {r : Ref} {scope : Namespace} {name : String}
    (hat : s.nameAt? r = some (scope, name)) : Unescaped (path ((target o).env s o) scope name) := by
  obtain ⟨hname, hscope⟩ := Schema.nameAt?_isIdentifier h.valid hat
  have hstart : ("#/definitions/".toList.all fun c => escapeChar c == [c]) = true := by decide +kernel
  intro c hc
  rw [path, String.toList_append] at hc
  rcases List.mem_append.1 hc with hc | hc
  · simpa using List.all_eq_true.1 hstart c hc
  · exact escapeChar_of_isWordChar (key_isWordChar o hscope hname c hc)

/-- The file is the text of the document. -/
theorem renderFile_contents (h : Loaded doc names declared s) {g : FileGroup} (hg : g.definitions = s.definitions)
    {file : OutputFile} (hfile : (target o).renderFile ((target o).env s o) g = .ok file) :
    ∃ ms, s.definitions.mapM (member ((target o).env s o)) = .ok ms ∧
      file.contents = (document ((target o).env s o) ms).pretty ++ "\n" := by
  obtain ⟨b, hb, hfile⟩ := bind_eq_ok.1 hfile
  obtain ⟨body, hbody, hb⟩ := bind_eq_ok.1 hb
  cases hb
  cases hfile
  -- nothing is written at the start, and each definition adds its member to what is there
  have hstart : Wrote [] ({ state := FileState.start g.scope } : Target.Body) := ⟨rfl, nofun, rfl⟩
  have hshape : ∀ d ∈ s.definitions, ∀ j, definitionSchema ((target o).env s o) d = .ok j →
      Shaped (Leads ((target o).env s o)) 9 j :=
    fun d hd j => definitionSchema_shaped (regular_of_loaded h) (Schema.definitions_within d hd)
  rw [hg] at hbody
  obtain ⟨ms, hms, hwrote⟩ := hstart.addAll hshape hbody
  rw [List.nil_append] at hwrote
  refine ⟨ms, hms, ?_⟩
  have hroot : ∀ d, s.rootStruct? = some d → Unescaped (path ((target o).env s o) d.scope d.name) := by
    intro d hd
    obtain ⟨i, _, hi⟩ := Option.bind_eq_some_iff.1 hd
    exact path_unescaped h (r := .struct i) (Option.map_eq_some_iff.2 ⟨d, hi, rfl⟩)
  have hplain : ∀ step ∈ header body.state ++ [.raw (",\n".intercalate (ms.map memberText))] ++
      footer ((target o).env s o) body.state, step.Plain := by
    intro step hstep
    rcases List.mem_append.1 hstep with hstep | hstep
    · rcases List.mem_append.1 hstep with hstep | hstep
      · exact header_plain body.state step hstep
      · rw [List.mem_singleton.1 hstep]
        trivial
    · exact footer_plain hroot body.state step hstep
  have hraw : ∀ t : String, Code.text [.raw t] = t := fun t => by simp [Code.text, Step.text]
  show Writer.render "  " (header body.state ++ [.raw (Writer.render "  " (body.code ++ _))] ++ footer _ body.state) = _
  rw [target_move, List.append_nil, Writer.render_plain hwrote.plain, hwrote.text, Writer.render_plain hplain, Code.text_append,
    Code.text_append, hraw, header_text, footer_text hroot, document_text, prettyAt_definitions, ← String.toList_inj]
  -- only a document without definitions has its braces on one line
  cases ms with
  | nil =>
    have hfirst : body.state.emitted = 0 := hwrote.emitted
    simp [hfirst]
  | cons m ms =>
    have hfirst : body.state.emitted ≠ 0 := by simp [hwrote.emitted]
    simp [hfirst]

end File

end JsonSchema

/-- A target that writes one file gives this file and what goes with it. -/
theorem Target.render_oneFile {t : Target} {s : Schema} {o : Options} (hlayout : t.layout = .oneFile)
    (hvalid : s.validate = .ok ()) {file : OutputFile}
    (hfile : t.renderFile (t.env s o) { path := t.singlePath (t.env s o), scope := {}, definitions := s.definitions } = .ok file) :
    t.render s o = .ok ([file] ++ t.companions (t.env s o) [file]) := by
  have hgroups : t.groups (t.env s o) =
      [{ path := t.singlePath (t.env s o), scope := {}, definitions := s.definitions }] := by
    unfold groups
    rw [hlayout]
    rfl
  unfold render
  rw [hvalid]
  refine bind_eq_ok.2 ⟨[file], ?_, rfl⟩
  rw [hgroups, List.mapM_cons, List.mapM_nil]
  exact bind_eq_ok.2 ⟨file, hfile, rfl⟩

/-- The JSON Schema of a loaded schema is one file. It is the text of a document with a member for each definition that is written,
enums and unions before structs and tables, and with a reference to the root if there is one; and it is read as this document. All
references in the document lead to definitions of the schema. -/
theorem Schema.ofDocument_jsonSchema {doc : SchemaDoc} {s : Schema} (h : Schema.ofDocument doc = .ok s) (o : Options) :
    let env := (Language.jsonSchema.target o).env s o
    ∃ objects, (s.structs.filter fun d => !d.generated).mapM (JsonSchema.structMember env) = .ok objects ∧
      let document := JsonSchema.document env (JsonSchema.enumMembers env ++ objects)
      (Language.jsonSchema.target o).render s o = .ok [{
        path := s.fileName ++ (JsonSchema.namer o).fileExtension
        contents := document.pretty ++ "\n" }] ∧
      Json.read? (document.pretty ++ "\n") = some document ∧
      s.rootStruct?.isSome = s.root.isSome ∧
      ∀ value, Json.HasMember "$ref" value document → ∃ ref scope name, s.nameAt? ref = some (scope, name) ∧
        value = .string ("#/definitions/" ++ (JsonSchema.namer o).scopedType scope name) := by
  obtain ⟨names, declared, h⟩ := Schema.ofDocument_loaded h
  have htotal : (Language.jsonSchema.target o).Total ((Language.jsonSchema.target o).env s o) :=
    Language.jsonSchema.target_total o h.closed
  obtain ⟨file, hfile⟩ := htotal.returns_renderFile (g := {
    path := (Language.jsonSchema.target o).singlePath ((Language.jsonSchema.target o).env s o)
    scope := {}
    definitions := s.definitions }) Schema.definitions_within
  obtain ⟨ms, hms, hcontents⟩ := JsonSchema.renderFile_contents h rfl hfile
  obtain ⟨objects, hobjects, rfl⟩ := JsonSchema.mapM_member hms
  have hshape := JsonSchema.document_shaped (JsonSchema.members_fit h hms)
  refine ⟨objects, hobjects, ?_, Json.read?_pretty hshape, ?_, ?_⟩
  · have hpath := Target.renderFile_path hfile
    rw [Target.render_oneFile rfl h.valid hfile]
    obtain ⟨path, contents⟩ := file
    cases hpath
    cases hcontents
    rfl
  · cases hroot : s.root with
    | none => rw [Schema.rootStruct?, hroot]; rfl
    | some i =>
      rw [Schema.rootStruct?, hroot, Option.bind_some, List.getElem?_eq_getElem (h.root_lt hroot)]
      rfl
  · intro value hvalue
    exact hshape.of_hasMember hvalue rfl

/-- The sample is written as one document that is read back, and each of its definitions is a member there. -/
theorem sampleDoc_jsonSchema : ∃ s, Schema.ofDocument sampleDoc = .ok s ∧
    let env := (Language.jsonSchema.target {}).env s {}
    (JsonSchema.enumMembers env).map (·.1) = ["game_Color", "game_Gear"] ∧
    ∃ objects : List (String × Json), objects.map (·.1) = ["game_Outer", "game_Inner", "game_Monster"] ∧
      let document := JsonSchema.document env (JsonSchema.enumMembers env ++ objects)
      (Language.jsonSchema.target {}).render s {} = .ok [{ path := ".schema.json", contents := document.pretty ++ "\n" }] ∧
      Json.read? (document.pretty ++ "\n") = some document := by
  obtain ⟨s, hs, hlook⟩ := Schema.exists_ofDocument sampleDoc
    (fun s => (s.fileName, (JsonSchema.enumMembers ((Language.jsonSchema.target {}).env s {})).map (·.1),
      (s.structs.filter fun d => !d.generated).map fun d => (JsonSchema.namer {}).scopedType d.scope d.name))
    ("", ["game_Color", "game_Gear"], ["game_Outer", "game_Inner", "game_Monster"]) (by decide +kernel)
  obtain ⟨hname, henums, hstructs⟩ : s.fileName = "" ∧ _ ∧ _ := by simpa only [Prod.mk.injEq] using hlook
  obtain ⟨objects, hobjects, hrender, hread, _⟩ := Schema.ofDocument_jsonSchema hs {}
  refine ⟨s, hs, henums, objects, ?_, ?_, hread⟩
  · rw [← hstructs]
    refine mapM_map (fun d m hm => ?_) hobjects
    obtain ⟨j, _, hm⟩ := bind_eq_ok.1 hm
    cases hm
    rfl
  · rw [hname] at hrender
    exact hrender

end FlatSchema

import FlatSchema.Proofs.EnumLiterals
import FlatSchema.Proofs.Indentation
import FlatSchema.Proofs.Redeclaration
import FlatSchema.Proofs.SchemaReader
import FlatSchema.Proofs.UnionText

/-!
# Namespaces in the schema language

In the schema language a namespace is in effect from the statement that names it to the next such statement. The generator finds the
namespace that is in effect from the qualified name that it wrote last, up to the last dot, and not from the moves between namespaces.
In a valid schema, where all names are identifiers, this is the same: a file is a header, a part for each definition with a statement
in front exactly if the move to it is not idle, and a footer (`Fbs.contents_eq`). If every part is read as what it was written for,
the namespace in effect at every definition is its own (`Fbs.namespaces_followed`). That is so if no text of the schema gets out of
its place (`Fbs.Contained`); documentation with a line break can hold a statement of its own (`strayDoc_namespaces`).
-/

namespace FlatSchema

open Code Emission

namespace Fbs

open Reader

/-! ## Statements -/

/-- The namespace of a qualified name is found again. -/
theorem scopeOf_qualify {n : Namespace} {name : String} (hn : n.Named) (hname : isIdentifier name = true) :
    scopeOf (n.qualify name ".") = n := by
  have hdots : ∀ c ∈ name.toList.reverse, (c != '.') = true := by
    intro c hc
    have hne : c ≠ '.' := by
      rintro rfl
      exact not_mem_of_isIdentifier hname (by decide) (List.mem_reverse.1 hc)
    simpa using hne
  by_cases hroot : n.isRoot = true
  · have hqualified : n.qualify name "." = name := by simp [Namespace.qualify, hroot]
    have hnone : name.toList.reverse.dropWhile (· != '.') = [] := List.dropWhile_eq_nil_iff.2 hdots
    rw [hqualified, scopeOf, hnone]
    exact Namespace.eq_of_isRoot rfl hroot
  · have hqualified : (n.qualify name ".").toList.reverse = name.toList.reverse ++ '.' :: n.dotted.toList.reverse := by
      simp [Namespace.qualify, hroot, Namespace.dotted]
    have hrest : (n.qualify name ".").toList.reverse.dropWhile (· != '.') = '.' :: n.dotted.toList.reverse := by
      rw [hqualified, List.dropWhile_append_of_pos hdots]
      exact List.dropWhile_cons_of_neg (by decide)
    rw [scopeOf, hrest]
    simp only [List.reverse_reverse, String.ofList_toList]
    exact hn.ofDotted_dotted

/-- After some definitions the namespace is that of the last one. -/
theorem lastScope_concat (n : Namespace) (es : List Emission) (e : Emission) : lastScope n (es ++ [e]) = e.definition.scope := by
  induction es generalizing n with
  | nil => rfl
  | cons e' es ih => exact ih e'.definition.scope

/-- The line of a statement. -/
def statementText (n : Namespace) : String := if n.isRoot then "namespace;" else s!"namespace {n.dotted};"

/-- The name and the namespace of a definition are identifiers. -/
def IsNamed (d : Definition) : Prop := isIdentifier d.name = true ∧ d.scope.Named

/-- There is a statement exactly if the definition before is in another namespace. -/
theorem namespaceLine_eq {scope current : Namespace} {before : List Emission} (h : ∀ e ∈ before, IsNamed e.definition) :
    namespaceLine (stateAfter scope before current) =
      if lastScope {} before = current then [] else line (statementText current) ++ blank := by
  unfold namespaceLine
  rcases List.eq_nil_or_concat' before with rfl | ⟨earlier, e, rfl⟩
  · rfl
  · obtain ⟨hname, hscope⟩ := h e (List.mem_append_right _ (List.mem_singleton_self e))
    have hlast : (stateAfter scope (earlier ++ [e]) current).declared.getLast? = some e.definition.qualifiedName := by
      simp [stateAfter]
    rw [hlast, lastScope_concat, Definition.qualifiedName]
    simp only [scopeOf_qualify hscope hname]
    rfl

/-- A statement is read as the namespace that it was written for. -/
theorem readsAs_statementText {n : Namespace} (hn : n.Named) : ReadsAs (statementText n ++ "\n\n") [.scope n] := by
  intro is
  have hkeyword : NameText "namespace".toList := List.all_eq_true.1 (by decide)
  have hend : ∀ r : Reader, r.mode = .plain → r.depth = 0 → r.items = is → statement? r.closed = some (.scope n) →
      r.read [';', '\n', '\n'] = idle 0 (is ++ [.scope n]) := by
    intro r hmode hdepth hitems hstatement
    have hstep : r.step ';' = idle 0 (is ++ [.scope n]) := by
      rw [step, hmode]
      simp [readPlain, hdepth, hitems, hstatement, idle]
    rw [read_cons, hstep]
    exact read_blanks (by simp) 0 _
  by_cases hroot : n.isRoot = true
  · have heq : n = {} := Namespace.eq_of_isRoot hroot rfl
    subst heq
    have htext : (statementText {} ++ "\n\n").toList = "namespace".toList ++ [';', '\n', '\n'] := by decide
    rw [htext, read_append, read_word hkeyword rfl rfl]
    exact hend _ rfl rfl rfl rfl
  · have htext : (statementText n ++ "\n\n").toList =
        ("namespace".toList ++ [' ']) ++ (n.dotted.toList ++ [';', '\n', '\n']) := by
      simp [statementText, hroot, toString]
    have hdotted : NameText n.dotted.toList := Namespace.intercalate_nameText hn
    have hne : n.dotted.toList ≠ [] := by
      intro hnil
      have hagain := hn.ofDotted_dotted
      rw [String.toList_inj.1 (hnil.trans String.toList_empty.symm)] at hagain
      exact hroot (hagain ▸ rfl)
    have hstart : (idle 0 is).read ("namespace".toList ++ [' ']) = { words := ["namespace".toList], items := is } :=
      behind_word hkeyword (by decide)
    rw [htext, read_append, hstart, read_append, read_word hdotted rfl rfl]
    refine hend _ rfl rfl rfl ?_
    simp [closed, hne, statement?, hn.ofDotted_dotted]

/-! ## Numbers and names -/

/-- Digits are quiet. -/
theorem isQuiet_of_isDigit {c : Char} (h : c.isDigit = true) : isQuiet c = true := by
  refine isQuiet_of_isNameChar ?_
  simp [isNameChar, isWordChar, Char.isAlphanum, h]

theorem quiet_takeWhile (s : List Char) : Quiet (s.takeWhile Char.isDigit) :=
  fun _ hc => isQuiet_of_isDigit (List.mem_takeWhile_imp hc)

/-- A natural number is written with quiet characters. -/
theorem quiet_digits (n : Nat) : Quiet (toString n).toList := fun c hc => isQuiet_of_isDigit (TypeExpr.toString_digits n c hc)

/-- An integer is written with quiet characters. -/
theorem quiet_toString (v : Int) : Quiet (toString v).toList := by
  intro c hc
  rcases Json.toString_chars v c hc with hdigit | rfl
  · exact isQuiet_of_isDigit hdigit
  · decide

/-- What is read as a sign is quiet. -/
theorem quiet_readSign (s : List Char) : ∃ front, s = front ++ (Decimal.readSign s).2 ∧ Quiet front := by
  unfold Decimal.readSign
  split
  · exact ⟨['-'], rfl, by decide⟩
  · exact ⟨['+'], rfl, by decide⟩
  · exact ⟨[], rfl, by decide⟩

/-- What is read as a fraction is quiet. -/
theorem quiet_readFraction (s : List Char) : ∃ front, s = front ++ (Numeral.readFraction s).2 ∧ Quiet front := by
  unfold Numeral.readFraction
  split
  next s =>
    refine ⟨'.' :: s.takeWhile Char.isDigit, ?_, List.forall_mem_cons.2 ⟨by decide, quiet_takeWhile s⟩⟩
    rw [List.span_eq_takeWhile_dropWhile, List.cons_append, List.takeWhile_append_dropWhile]
  next => exact ⟨[], rfl, by decide⟩

/-- What is read as an exponent is quiet. -/
theorem quiet_readExponent? {s : List Char} {e : Int} (h : Decimal.readExponent? s = some (e, [])) : Quiet s := by
  -- behind the mark stand a sign and digits up to the end
  have hmarked : ∀ r : List Char, (Decimal.readSign r).2.dropWhile Char.isDigit = [] → Quiet r := by
    intro r hrest
    obtain ⟨front, hr, hfront⟩ := quiet_readSign r
    have hdigits := List.takeWhile_append_dropWhile (p := Char.isDigit) (l := (Decimal.readSign r).2)
    rw [hrest, List.append_nil] at hdigits
    rw [hr, ← hdigits]
    exact hfront.append (quiet_takeWhile _)
  unfold Decimal.readExponent? at h
  simp only [List.span_eq_takeWhile_dropWhile] at h
  split at h
  next r =>
    split at h
    · cases h
    · exact List.forall_mem_cons.2 ⟨by decide, hmarked r (Prod.ext_iff.1 (Option.some.inj h)).2⟩
  next r =>
    split at h
    · cases h
    · exact List.forall_mem_cons.2 ⟨by decide, hmarked r (Prod.ext_iff.1 (Option.some.inj h)).2⟩
  next =>
    obtain ⟨_, rfl⟩ := Prod.ext_iff.1 (Option.some.inj h)
    exact List.forall_mem_nil _

/-- A word that stands for a number is quiet. -/
theorem quiet_ofWord? {negative : Bool} {s : List Char} {n : Numeral} (h : Numeral.ofWord? negative s = some n) : Quiet s := by
  have hword : s.map Char.toLower ∈ ["inf".toList, "infinity".toList, "nan".toList] := by
    unfold Numeral.ofWord? at h
    dsimp only at h
    split at h
    next hinf =>
      rcases hinf with hinf | hinf
      · rw [← hinf]; simp
      · rw [← hinf]; simp
    next =>
      split at h
      next hnan => rw [← hnan]; simp
      next => cases h
  have hletters : ["inf".toList, "infinity".toList, "nan".toList].all (·.all Char.isLower) = true := by decide
  intro c hc
  have hlower := List.all_eq_true.1 (List.all_eq_true.1 hletters _ hword) _ (List.mem_map_of_mem hc)
  by_contra hloud
  rw [Bool.not_eq_true, isQuiet, Bool.not_eq_false', List.contains_iff_mem] at hloud
  have hnone : ['/', '"', '\x7b', '\x7d', ';', '\n'].all (fun c => !c.toLower.isLower) = true := by decide
  have hnot := List.all_eq_true.1 hnone c hloud
  rw [hlower] at hnot
  cases hnot

/-- Whatever reads as a number is quiet. -/
theorem quiet_of_read? {s : List Char} {n : Numeral} (h : Numeral.read? s = some n) : Quiet s := by
  unfold Numeral.read? at h
  simp only [List.span_eq_takeWhile_dropWhile] at h
  obtain ⟨sign, hs, hsign⟩ := quiet_readSign s
  split at h
  · rw [hs]
    exact hsign.append (quiet_ofWord? h)
  · split at h
    next exponent hexponent =>
      obtain ⟨fraction, hrest, hfraction⟩ := quiet_readFraction ((Decimal.readSign s).2.dropWhile Char.isDigit)
      rw [hs, ← List.takeWhile_append_dropWhile (p := Char.isDigit) (l := (Decimal.readSign s).2), hrest]
      exact hsign.append ((quiet_takeWhile _).append (hfraction.append (quiet_readExponent? hexponent)))
    next => cases h

/-! ## The texts of a schema -/

/-- Attributes that stay in their list: keys open and close nothing, and values can stand in quotes. -/
def AttributesContained (attributes : List (String × String)) : Prop :=
  ∀ a ∈ attributes, Quiet a.1.toList ∧ Quotable a.2.toList

/-- Documentation that stays in its comment. -/
def DocContained (doc : List String) : Prop := ∀ d ∈ doc, Writer.OneLine [] d

/-- The texts of a definition stay in their places. -/
def DefinitionContained : Definition → Prop
  | .enum _ e => DocContained e.doc ∧ AttributesContained e.attributes ∧ ∀ v ∈ e.vals, DocContained v.doc
  | .struct _ d => DocContained d.doc ∧ AttributesContained d.attributes ∧
    ∀ f ∈ d.fields, DocContained f.doc ∧ AttributesContained f.attributes

/-- No text of a schema gets out of its place in a file of the schema language. -/
structure Contained (s : Schema) : Prop where
  fileName : '\n' ∉ s.fileName.toList
  definitions : ∀ d ∈ s.definitions, DefinitionContained d
  identifier : ∀ id ∈ s.fileIdentifier, Quotable id.toList
  extension : ∀ x ∈ s.fileExtension, Quotable x.toList

instance : DecidablePred AttributesContained := fun _ => inferInstanceAs (Decidable (∀ a ∈ _, _))

instance : DecidablePred DocContained := fun _ => inferInstanceAs (Decidable (∀ d ∈ _, _))

instance : DecidablePred DefinitionContained
  | .enum _ e => inferInstanceAs (Decidable (DocContained e.doc ∧ AttributesContained e.attributes ∧ ∀ v ∈ e.vals, DocContained v.doc))
  | .struct _ d => inferInstanceAs (Decidable (DocContained d.doc ∧ AttributesContained d.attributes ∧
    ∀ f ∈ d.fields, DocContained f.doc ∧ AttributesContained f.attributes))

instance : DecidablePred Contained := fun s =>
  decidable_of_iff ('\n' ∉ s.fileName.toList ∧ (∀ d ∈ s.definitions, DefinitionContained d) ∧
      (∀ id ∈ s.fileIdentifier.toList, Quotable id.toList) ∧ ∀ x ∈ s.fileExtension.toList, Quotable x.toList)
    ⟨fun h => ⟨h.1, h.2.1, fun id hid => h.2.2.1 id (Option.mem_toList.2 hid), fun x hx => h.2.2.2 x (Option.mem_toList.2 hx)⟩,
      fun h => ⟨h.1, h.2, fun id hid => h.3 id (Option.mem_toList.1 hid), fun x hx => h.4 x (Option.mem_toList.1 hx)⟩⟩

/-- The constants of scalars open and close nothing. -/
def ConstantsQuiet (s : Schema) : Prop := ∀ d ∈ s.structs, ∀ f ∈ d.fields, f.type.isScalar = true → Quiet f.constant.toList

variable {env : Env}

/-- An attribute is passed over: its value stands between quotes and closes them nowhere. -/
theorem passes_attributeText {key value : String} (hkey : Quiet key.toList) (hvalue : Quotable value.toList) :
    Passes (attributeText key value).toList := by
  unfold attributeText
  split
  next => exact .of_quiet hkey
  next =>
    split
    next hnumber =>
      obtain ⟨n, hn⟩ := Option.isSome_iff_exists.1 hnumber
      have htext : (s!"{key}: {value}").toList = key.toList ++ (": ".toList ++ value.toList) := by simp [toString]
      rw [htext]
      exact .of_quiet (hkey.append (.append (by decide) (quiet_of_read? hn)))
    next =>
      have htext : (s!"{key}: \"{value}\"").toList = key.toList ++ (": ".toList ++ '"' :: (value.toList ++ ['"'])) := by
        simp [toString]
      rw [htext]
      exact (Passes.of_quiet hkey).append ((Passes.of_quiet (by decide)).append (.quoted hvalue))

/-- Entries between quiet brackets are passed over. -/
theorem passes_entries {opening closing : String} (hopening : Quiet opening.toList) (hclosing : Quiet closing.toList)
    {entries : List String} (h : ∀ x ∈ entries, Passes x.toList) : Passes (opening ++ ", ".intercalate entries ++ closing).toList := by
  rw [String.toList_append, String.toList_append]
  exact ((Passes.of_quiet hopening).append (.intercalate (.of_quiet (by decide)) h)).append (.of_quiet hclosing)

/-- A list of attributes is passed over. -/
theorem passes_attributeList {entries : List String} (h : ∀ x ∈ entries, Passes x.toList) : Passes (attributeList entries).toList := by
  unfold attributeList
  split
  · exact .nil
  · exact passes_entries (by decide) (by decide) h

/-- A list of attributes and the brace behind it stand apart from what is in front. -/
theorem attributeList_open {entries : List String} (h : ∀ x ∈ entries, Passes x.toList) :
    ∃ rest : String, Passes rest.toList ∧ (attributeList entries).toList ++ [' ', '\x7b'] = ' ' :: (rest.toList ++ ['\x7b']) := by
  unfold attributeList
  split
  · exact ⟨"", .nil, by decide⟩
  · exact ⟨"(" ++ ", ".intercalate entries ++ ") ", passes_entries (by decide) (by decide) h, by simp⟩

/-- The attributes that were given pass. -/
theorem passes_given {attributes : List (String × String)} (h : AttributesContained attributes) :
    ∀ x ∈ attributes.map (fun a => attributeText a.1 a.2), Passes x.toList := by
  intro x hx
  obtain ⟨a, ha, rfl⟩ := List.mem_map.1 hx
  exact passes_attributeText (h a ha).1 (h a ha).2

section Names

variable (hnames : Validity.checkNames env.schema = .ok ()) {here : Namespace} {t : TypeDesc} {text : String} {d : StructDef}
  {f : FieldDef}

include hnames

/-- What is written for a struct is a name. -/
theorem nameText_struct (hd : d ∈ env.schema.structs) : NameText (nameFrom here d.scope d.name).toList := by
  obtain ⟨hname, hscope⟩ := (Validity.checkNames_eq_ok.1 hnames).2.1 d hd
  exact nameFrom_nameText hscope hname

/-- What is written for an atom is a name. -/
theorem nameText_atomText (h : atomText env here t = .ok text) : NameText text.toList := by
  have henums := (Validity.checkNames_eq_ok.1 hnames).1
  unfold atomText at h
  split at h
  next =>
    cases h
    exact List.all_eq_true.1 (by decide)
  next =>
    obtain ⟨d, hd, h⟩ := bind_eq_ok.1 h
    cases h
    exact nameText_struct hnames (Env.mem_of_structOf hd)
  next =>
    split at h
    next =>
      obtain ⟨e, he, h⟩ := bind_eq_ok.1 h
      cases h
      obtain ⟨hname, hscope⟩ := henums e (Schema.mem_of_enumOf? (Env.enumOf_eq_ok.1 he))
      exact nameFrom_nameText hscope hname
    next =>
      cases h
      cases t.base <;> exact List.all_eq_true.1 (by decide)

/-- A type is written with quiet characters. -/
theorem quiet_typeText (h : typeText env here t = .ok text) : Quiet text.toList := by
  obtain ⟨atom, hatom, h⟩ := bind_eq_ok.1 h
  cases h
  induction t.layers with
  | nil => exact NameText.quiet (nameText_atomText hnames hatom)
  | cons layer layers ih =>
    obtain ⟨b, n⟩ := layer
    rw [List.foldr_cons]
    dsimp only
    split
    · have htext : ∀ s : String, (s!"[{s}:{n}]").toList = ['['] ++ (s.toList ++ ([':'] ++ ((toString n).toList ++ [']']))) := by
        intro s
        simp [toString]
      rw [htext]
      exact .append (by decide) (ih.append (.append (by decide) ((quiet_digits n).append (by decide))))
    · have htext : ∀ s : String, (s!"[{s}]").toList = ['['] ++ (s.toList ++ [']']) := by
        intro s
        simp [toString]
      rw [htext]
      exact .append (by decide) (ih.append (by decide))

/-- The default of a field is the name of a member, or the constant. -/
theorem quiet_default? (hconstant : f.type.isScalar = true → Quiet f.constant.toList) {initial : Option String}
    (h : default? env f = .ok initial) : ∀ v ∈ initial, Quiet v.toList := by
  have hmembers := (Validity.checkNames_eq_ok.1 hnames).2.2.1
  unfold default? at h
  dsimp only at h
  split at h
  next =>
    cases h
    exact nofun
  next hwritten =>
    have hscalar : f.type.isScalar = true := by
      simp only [Bool.or_eq_true, Bool.not_eq_true', not_or, Bool.not_eq_false] at hwritten
      exact hwritten.1
    split at h
    next =>
      cases h
      rintro v ⟨⟩
      decide
    next =>
      split at h
      next =>
        -- an enum is written by the name of a member, which is an identifier, or by the constant
        obtain ⟨e, he, h⟩ := bind_eq_ok.1 h
        split at h
        next v hv =>
          cases h
          rintro _ ⟨⟩
          obtain ⟨_, _, hv⟩ := Option.bind_eq_some_iff.1 hv
          exact quiet_of_isIdentifier (hmembers e (Schema.mem_of_enumOf? (Env.enumOf_eq_ok.1 he)) v (List.mem_of_find?_eq_some hv))
        next =>
          cases h
          rintro _ ⟨⟩
          exact hconstant hscalar
      next =>
        cases h
        rintro _ ⟨⟩
        exact hconstant hscalar

/-- The attribute that names the root of a nested buffer. -/
theorem passes_nested (hd : d ∈ env.schema.structs) : Passes (s!"nested_flatbuffer: \"{nameFrom here d.scope d.name}\"").toList := by
  have hname : NameText (nameFrom here d.scope d.name).toList := nameText_struct hnames hd
  have htext : (s!"nested_flatbuffer: \"{nameFrom here d.scope d.name}\"").toList =
      "nested_flatbuffer: ".toList ++ '"' :: ((nameFrom here d.scope d.name).toList ++ ['"']) := by
    simp [toString]
  rw [htext]
  exact (Passes.of_quiet (by decide)).append (.quoted ⟨hname.not_mem (by decide), hname.not_mem (by decide), hname.not_mem (by decide)⟩)

/-- The attributes of a field are passed over, those that its flags ask for included. -/
theorem passes_fieldAttributes (hcontained : AttributesContained f.attributes) {entries : List String}
    (h : fieldAttributes env here f = .ok entries) : ∀ x ∈ entries, Passes x.toList := by
  have hflag : ∀ (b : Bool) (name : String), Quiet name.toList → ∀ x ∈ (if b then [name] else []), Passes x.toList := by
    intro b name hname x hx
    split at hx
    · rw [List.mem_singleton.1 hx]
      exact .of_quiet hname
    · cases hx
  have hothers : AttributesContained (f.attributes.filter fun a => !flagAttributes.contains a.1) :=
    fun a ha => hcontained a (List.mem_filter.1 ha).1
  unfold fieldAttributes at h
  dsimp only at h
  split at h
  next i _ =>
    obtain ⟨d, hd, h⟩ := bind_eq_ok.1 h
    cases h
    simp only [List.forall_mem_append, List.forall_mem_singleton]
    exact ⟨⟨⟨⟨hflag _ _ (by decide), hflag _ _ (by decide)⟩, hflag _ _ (by decide)⟩, passes_nested hnames (Env.mem_of_structAt hd)⟩,
      passes_given hothers⟩
  next =>
    cases h
    simp only [List.forall_mem_append]
    exact ⟨⟨⟨⟨hflag _ _ (by decide), hflag _ _ (by decide)⟩, hflag _ _ (by decide)⟩, fun x hx => absurd hx List.not_mem_nil⟩,
      passes_given hothers⟩

end Names

/-! ## Declarations -/

namespace Reads

/-- A line in braces that ends with a mark and passes before is skipped. -/
theorem member (text : String) {stop : Char} (h : Passes text.toList) (hstop : stop = ';' ∨ stop = ',') (n : Nat) {p : Phrase}
    (hp : p.text.toList = text.toList ++ [stop]) : Reads (Code.line p) (n + 1) [] (n + 1) := by
  have hne : stop ≠ '\n' ∧ stop ≠ '\\' := by rcases hstop with rfl | rfl <;> decide
  refine line ?_ ?_ fun is => ?_
  · rw [hp, List.mem_append, List.mem_singleton, not_or]
    exact ⟨h.noBreak, hne.1.symm⟩
  · rw [hp, List.getLast?_concat]
    exact fun heq => hne.2 (Option.some.inj heq)
  · have hread : (idle (n + 1) is).read [stop, '\n'] = idle (n + 1) is := by rcases hstop with rfl | rfl <;> rfl
    rw [hp, List.append_assoc, read_append, h.inside, List.append_nil]
    exact hread

/-- The head of a definition opens it. -/
theorem head (word rest : String) {name : String} {p : Phrase} (hword : word.toList ∈ definitionWords) (hname : isIdentifier name = true)
    (hrest : Passes rest.toList) (hp : p.text.toList = (word.toList ++ [' ']) ++ ((name.toList ++ [' ']) ++ (rest.toList ++ ['\x7b']))) :
    Reads (Code.line p) 0 [.definition name] 1 := by
  have hwords : ∀ w ∈ definitionWords, NameText w ∧ w ≠ [] := by
    have hall : definitionWords.all (fun w => w.all isNameChar && w != []) = true := by decide
    intro w hw
    have hw := List.all_eq_true.1 hall w hw
    rw [Bool.and_eq_true, bne_iff_ne] at hw
    exact ⟨List.all_eq_true.1 hw.1, hw.2⟩
  obtain ⟨c, tail, hcons, hchars⟩ := isIdentifier_chars hname
  have hnameText : NameText name.toList := fun c hc => by simp [isNameChar, hchars c hc]
  have hbreak : ∀ {s : List Char}, NameText s → '\n' ∉ s := fun h => h.not_mem (by decide)
  refine line ?_ ?_ fun is => ?_
  · rw [hp]
    simp [hbreak (hwords _ hword).1, hbreak hnameText, hrest.noBreak]
  · rw [hp, ← List.append_assoc, ← List.append_assoc, List.getLast?_concat]
    decide
  · have hword' : (idle 0 is).read (word.toList ++ [' ']) = { words := [word.toList], items := is } :=
      behind_word (hwords _ hword).1 (hwords _ hword).2
    have hname' : ({ words := [word.toList], items := is } : Reader).read (name.toList ++ [' ']) =
        { words := [word.toList, name.toList], items := is } := behind_word hnameText (by simp [hcons])
    have hbehind := hrest.outside [word.toList, name.toList] is { words := [word.toList, name.toList], items := is }
      ⟨rfl, rfl, List.prefix_refl _, rfl⟩
    rw [hp, List.append_assoc, read_append, hword', List.append_assoc, read_append, hname', List.append_assoc, read_append,
      List.singleton_append, read_cons, hbehind.open hword, String.ofList_toList]
    rfl

/-- A declaration between braces, with its documentation. -/
theorem declaration {doc : List String} {p : Phrase} {body : Code} {name : String} (hdoc : DocContained doc)
    (hhead : Reads (Code.line (p ++ (" \x7b" : Phrase))) 0 [.definition name] 1) (hbody : Reads body 1 [] 1) :
    Reads (Fbs.docs doc ++ braced p body) 0 [.definition name] 0 := by
  have hstop : Reads (Code.line "\x7d") 1 [] 0 := by
    refine line (by decide) (by decide) fun is => ?_
    rw [List.append_nil]
    rfl
  exact (docs hdoc).append ((hhead.append hbody.indented).append hstop)

/-- Code that is read without finding anything, one piece after the other. -/
theorem flatMap {α : Type} {xs : List α} {g : α → Code} {n : Nat} (h : ∀ x ∈ xs, Reads (g x) n [] n) :
    Reads (xs.flatMap g) n [] n := by
  induction xs with
  | nil => exact nil
  | cons x xs ih =>
    obtain ⟨hx, hxs⟩ := List.forall_mem_cons.1 h
    exact hx.append (ih hxs)

end Reads

section Declarations

variable (hnames : Validity.checkNames env.schema = .ok ()) {d : StructDef} {e : EnumDef}

include hnames

/-- Nothing is found in a field. -/
theorem reads_fieldCode {here : Namespace} {f : FieldDef} (hname : isIdentifier f.name = true)
    (hconstant : f.type.isScalar = true → Quiet f.constant.toList) (hdoc : DocContained f.doc)
    (hattributes : AttributesContained f.attributes) {code : Code} (h : fieldCode env here f = .ok code) :
    Reads code 1 [] 1 := by
  unfold fieldCode at h
  obtain ⟨t, ht, h⟩ := bind_eq_ok.1 h
  obtain ⟨initial, hinitial, h⟩ := bind_eq_ok.1 h
  obtain ⟨entries, hentries, h⟩ := bind_eq_ok.1 h
  cases h
  have hline : ∀ value : String, Quiet value.toList → Reads (line s!"{f.name}:{t}{value}{attributeList entries};") 1 [] 1 := by
    intro value hvalue
    have hcolon : Quiet ":".toList := by decide
    have hpasses : Passes (f.name ++ ":" ++ t ++ value ++ attributeList entries).toList := by
      simp only [String.toList_append]
      refine Passes.append (.of_quiet ?_) (passes_attributeList (passes_fieldAttributes hnames hattributes hentries))
      exact (((quiet_of_isIdentifier hname).append hcolon).append (quiet_typeText hnames ht)).append hvalue
    exact .member _ hpasses (.inl rfl) 0 (by simp [toString])
  refine (Reads.docs hdoc).append ?_
  cases initial with
  | none => exact hline "" (List.forall_mem_nil _)
  | some v =>
    refine hline s!" = {v}" ?_
    have htext : (s!" = {v}").toList = " = ".toList ++ v.toList := by simp [toString]
    rw [htext]
    exact .append (by decide) (quiet_default? hnames hconstant hinitial v rfl)

/-- In a struct or table its head is found, and nothing else. -/
theorem reads_objectCode {word : String} (hword : word.toList ∈ definitionWords) (hconstants : ConstantsQuiet env.schema) {i : Nat}
    (hd : d ∈ env.schema.structs) (hcontained : DefinitionContained (.struct i d)) {code : Code} (h : objectCode word env d = .ok code) :
    Reads code 0 [.definition d.name] 0 := by
  obtain ⟨hdoc, hattributes, hfields⟩ := hcontained
  obtain ⟨_, hstructs, _, hfieldNames⟩ := Validity.checkNames_eq_ok.1 hnames
  unfold objectCode at h
  obtain ⟨fields, hcodes, h⟩ := bind_eq_ok.1 h
  cases h
  refine .declaration hdoc ?_ ?_
  · obtain ⟨rest, hrest, htext⟩ := attributeList_open (passes_given hattributes)
    refine .head word _ hword (hstructs d hd).1 hrest ?_
    simp [toString, htext]
  · rw [← List.flatMap_id]
    refine .flatMap fun c hc => ?_
    obtain ⟨f, hf, hcode⟩ := mapM_mem hcodes c hc
    have hf := (List.mem_filter.1 hf).1
    exact reads_fieldCode hnames (hfieldNames d hd f hf) (hconstants d hd f hf) (hfields f hf).1 (hfields f hf).2 hcode

/-- Nothing is found in a member. -/
theorem reads_variantCode (he : e ∈ env.schema.enums) {v : EnumVal} (hv : v ∈ e.vals) (hdoc : DocContained v.doc) {code : Code}
    (h : variantCode env e v = .ok code) : Reads code 1 [] 1 := by
  have hname := quiet_of_isIdentifier ((Validity.checkNames_eq_ok.1 hnames).2.2.1 e he v hv)
  have hmember : ∀ member : String, Quiet member.toList → Reads (docs v.doc ++ line s!"{member},") 1 [] 1 :=
    fun member hquiet => (Reads.docs hdoc).append (.member _ (.of_quiet hquiet) (.inr rfl) 0 (by simp [toString]))
  unfold variantCode at h
  dsimp only at h
  split at h
  · obtain ⟨d, hd, h⟩ := bind_eq_ok.1 h
    cases h
    refine hmember _ ?_
    split
    · exact hname
    · have htext : (s!"{v.name}: {nameFrom e.scope d.scope d.name}").toList =
          v.name.toList ++ (": ".toList ++ (nameFrom e.scope d.scope d.name).toList) := by
        simp [toString]
      rw [htext]
      exact hname.append (.append (by decide) (NameText.quiet (nameText_struct hnames (Env.mem_of_structOf hd))))
  · cases h
    refine hmember _ ?_
    have htext : (s!"{v.name}: string").toList = v.name.toList ++ ": string".toList := by simp [toString]
    rw [htext]
    exact hname.append (by decide)

/-- In an enum or union its head is found, and nothing else. -/
theorem reads_enumCode {i : Nat} (he : e ∈ env.schema.enums) (hcontained : DefinitionContained (.enum i e)) {code : Code}
    (h : enumCode env e = .ok code) : Reads code 0 [.definition e.name] 0 := by
  obtain ⟨hdoc, hattributes, hvals⟩ := hcontained
  obtain ⟨henums, _, hmembers, _⟩ := Validity.checkNames_eq_ok.1 hnames
  unfold enumCode at h
  dsimp only at h
  split at h
  · obtain ⟨variants, hvariants, h⟩ := bind_eq_ok.1 h
    cases h
    refine .declaration hdoc (.head "union" "" (by decide) (henums e he).1 .nil (by simp [toString])) ?_
    rw [← List.flatMap_id]
    refine .flatMap fun c hc => ?_
    obtain ⟨v, hv, hcode⟩ := mapM_mem hvariants c hc
    have hv := EnumDef.mem_of_mem_variants hv
    exact reads_variantCode hnames he hv (hvals v hv) hcode
  · cases h
    refine .declaration hdoc ?_ (.flatMap fun v hv => (Reads.docs (hvals v hv)).append ?_)
    · obtain ⟨rest, hrest, htext⟩ := attributeList_open (passes_given hattributes)
      have hbase : Quiet e.underlying.base.name.toList := by cases e.underlying.base <;> decide
      refine .head "enum" (": " ++ e.underlying.base.name ++ " " ++ rest) (by decide) (henums e he).1 ?_ ?_
      · simp only [String.toList_append]
        exact (Passes.of_quiet ((Quiet.append (by decide) hbase).append (by decide))).append hrest
      · simp [toString, htext]
    · have hvalue : Quiet (if e.isBitFlags then toString (lowestBit v.value) else e.valueText v.value).toList := by
        split
        · exact quiet_digits _
        · unfold EnumDef.valueText
          split
          · exact quiet_digits _
          · exact quiet_toString _
      refine .member (v.name ++ " = " ++ if e.isBitFlags then toString (lowestBit v.value) else e.valueText v.value)
        (.of_quiet ?_) (.inr rfl) 0 (by simp [toString])
      simp only [String.toList_append]
      exact ((quiet_of_isIdentifier (hmembers e he v hv)).append (by decide)).append hvalue

end Declarations

/-! ## The parts of a file -/

/-- The declaration of a definition, without the statement in front of it. -/
def declaration (env : Env) : Definition → Except GenError Code
  | .enum _ e => enumCode env e
  | .struct _ d => objectCode (if d.fixed then "struct" else "table") env d

/-- What the target gives for a definition is its declaration, apart from what its file has declared before. -/
theorem define_eq (o : Options) (env : Env) (state : FileState) (d : Definition) :
    (target o).define env state d = declaration env d >>= fun code => pure (declared state code) := by
  cases d with
  | enum i e => rfl
  | struct i d => cases hfixed : d.fixed <;> simp only [Target.define, declaration, hfixed] <;> rfl

/-- The text of a declaration. -/
def IsPart (env : Env) (d : Definition) (text : String) : Prop :=
  ∃ code, declaration env d = .ok code ∧ text = Writer.render "  " (code ++ blank)

/-- The statement in front of a definition, unless the move to it is idle. -/
def leading (d : Definition) (move : Transition) : String := if move.isNoop then "" else statementText d.scope ++ "\n\n"

/-- What is to be read for a definition: its head, and in front of it a statement unless the move to it is idle. -/
def announced (d : Definition) (move : Transition) : List Item :=
  (if move.isNoop then [] else [.scope d.scope]) ++ [.definition d.name]

/-- What is to be read for definitions that are visited from some namespace. -/
def announcedAll (n : Namespace) (ds : List Definition) : List Item :=
  (List.zipWith announced ds (Transition.visit n (ds.map (·.scope)))).flatten

theorem announcedAll_cons (n : Namespace) (d : Definition) (ds : List Definition) :
    announcedAll n (d :: ds) = announced d { source := n, target := d.scope } ++ announcedAll d.scope ds := rfl

/-- The namespace in effect at each definition is its own. -/
theorem effective_announcedAll (ds : List Definition) (n : Namespace) :
    effective n (announcedAll n ds) = ds.map fun d => (d.scope, d.name) := by
  induction ds generalizing n with
  | nil => rfl
  | cons d ds ih =>
    rw [announcedAll_cons, announced, List.map_cons, ← ih d.scope]
    by_cases hnoop : Transition.isNoop { source := n, target := d.scope } = true
    · have hsame : n = d.scope := (Transition.isNoop_iff _).1 hnoop
      subst hsame
      rw [if_pos hnoop]
      rfl
    · rw [if_neg hnoop]
      rfl

variable {o : Options} {scope : Namespace}

/-- The definitions of a valid schema are named by identifiers. -/
theorem isNamed_of_mem {s : Schema} (hs : s.validate = .ok ()) {d : Definition} (hd : d ∈ s.definitions) : IsNamed d :=
  Schema.nameAt?_isIdentifier hs (Schema.nameAt?_ref hd)

/-- The text of some definitions: their parts behind the statements that the moves between them ask for. -/
def joinedParts (n : Namespace) (ds : List Definition) (parts : List String) : String :=
  String.join (List.zipWith (· ++ ·) (List.zipWith leading ds (Transition.visit n (ds.map (·.scope)))) parts)

theorem joinedParts_cons (n : Namespace) (d : Definition) (ds : List Definition) (part : String) (parts : List String) :
    joinedParts n (d :: ds) (part :: parts) =
      leading d { source := n, target := d.scope } ++ part ++ joinedParts d.scope ds parts := String.join_cons

/-- A statement is written as a line with a blank one behind it. -/
theorem render_statement {n : Namespace} (hn : n.Named) :
    Writer.render "  " (line (statementText n) ++ blank) = statementText n ++ "\n\n" := by
  have hdotted : NameText n.dotted.toList := Namespace.intercalate_nameText hn
  have hplain : ∀ step ∈ line (statementText n) ++ blank, step.Plain := by
    refine List.forall_mem_cons.2 ⟨?_, List.forall_mem_singleton.2 (by decide)⟩
    show '\n' ∉ (statementText n).toList ∧ (statementText n).toList.getLast? ≠ some '\\'
    unfold statementText
    split
    · decide
    · have htext : (s!"namespace {n.dotted};").toList = "namespace ".toList ++ n.dotted.toList ++ [';'] := by simp [toString]
      simp only [htext, List.getLast?_concat]
      refine ⟨?_, by decide⟩
      simp [hdotted.not_mem (show isNameChar '\n' = false by decide)]
  rw [Writer.render_plain hplain]
  simp [Code.text, line, blank, Step.text, String.append_assoc]

/-- One step of a file: a definition is written as its part, behind a statement unless the move to it is idle. -/
theorem render_emission {before : List Emission} {e : Emission} (hbefore : ∀ e ∈ before, IsNamed e.definition)
    (hscope : e.definition.scope.Named) (hstate : e.state = stateAfter scope before e.definition.scope)
    (hcode : (target o).define env e.state e.definition = .ok e.code) :
    ∃ part, IsPart env e.definition part ∧ Writer.render "  " e.code =
      leading e.definition { source := lastScope {} before, target := e.definition.scope } ++ part := by
  rw [define_eq] at hcode
  obtain ⟨code, hdeclaration, hcode⟩ := bind_eq_ok.1 hcode
  have hcode : declared e.state code = e.code := Except.ok.inj hcode
  refine ⟨_, ⟨code, hdeclaration, rfl⟩, ?_⟩
  have hsplit : e.code = namespaceLine e.state ++ (code ++ blank) := by rw [← hcode, declared, List.append_assoc]
  rw [hsplit, hstate, namespaceLine_eq hbefore, leading]
  by_cases hsame : lastScope {} before = e.definition.scope
  · rw [if_pos hsame, if_pos ((Transition.isNoop_iff _).2 hsame)]
    exact (String.empty_append).symm
  · rw [if_neg hsame, if_neg fun hnoop => hsame ((Transition.isNoop_iff _).1 hnoop),
      Writer.render_append (Settles.blank.after _).calm, render_statement hscope]

/-- The code of a definition is made of lines and comments, and the last line is empty. -/
theorem define_keyless {state : FileState} {d : Definition} {code : Code} (h : (target o).define env state d = .ok code) :
    Balanced Step.Keyless code ∧ Settles code := by
  rw [define_eq] at h
  obtain ⟨inner, hinner, h⟩ := bind_eq_ok.1 h
  cases h
  have hkeyless : Balanced Step.Keyless inner := by
    cases d with
    | enum i e => exact (balanced_enumCode (Q := Step.Keyless)).of_ok _ hinner
    | struct i d => exact (balanced_objectCode (Q := Step.Keyless)).of_ok _ hinner
  exact ⟨.append (.append balanced_namespaceLine hkeyless) inferInstance, Settles.blank.after _⟩

/-- A run of definitions: their parts one after the other, with the statements that the moves between them ask for. -/
theorem render_written {es : List Emission} : ∀ {before : List Emission}, (target o).Asked env scope before es →
    (∀ e ∈ before, IsNamed e.definition) → (∀ e ∈ es, IsNamed e.definition) →
    ∃ parts, List.Forall₂ (IsPart env) (es.map (·.definition)) parts ∧
      Writer.render "  " (written (target o) env (lastScope {} before) es) =
        joinedParts (lastScope {} before) (es.map (·.definition)) parts := by
  induction es with
  | nil => exact fun _ _ _ => ⟨[], .nil, rfl⟩
  | cons e es ih =>
    intro before hasked hbefore hes
    obtain ⟨he, hes⟩ := List.forall_mem_cons.1 hes
    obtain ⟨⟨hstate, hcode⟩, hasked⟩ := Target.asked_cons.1 hasked
    have hnext : ∀ e' ∈ before ++ [e], IsNamed e'.definition :=
      List.forall_mem_append.2 ⟨hbefore, List.forall_mem_singleton.2 he⟩
    obtain ⟨parts, hparts, hlater⟩ := ih hasked hnext hes
    obtain ⟨part, hpart, hrender⟩ := render_emission hbefore he.2 hstate hcode
    obtain ⟨hkeyless, hsettles⟩ := define_keyless hcode
    have hmove : (target o).move env { source := lastScope {} before, target := e.definition.scope } = [] :=
      Language.move_eq_nil .fbs o env (by decide) _
    rw [lastScope_concat] at hlater
    refine ⟨part :: parts, .cons hpart hparts, ?_⟩
    rw [written, hmove, List.nil_append, Writer.render_append hsettles.calm, hrender, hlater, List.map_cons, joinedParts_cons]

/-- The text of the header. -/
def headerText (env : Env) : String := Writer.render "  " (line s!"// Generated from {env.schema.fileName}" ++ blank)

/-- The text of the declarations behind the definitions. -/
def footerText (env : Env) : String := Writer.render "  " (footer env)

/-- A file of a valid schema is its header, the parts of its definitions behind their statements, and its footer. -/
theorem contents_eq {s : Schema} (hs : s.validate = .ok ()) {r : FileRun} (h : (target o).Wrote ((target o).env s o) r)
    (hdefinitions : r.group.definitions = s.definitions) :
    ∃ parts, List.Forall₂ (IsPart ((target o).env s o)) s.definitions parts ∧
      r.file.contents = headerText ((target o).env s o) ++ joinedParts .root s.definitions parts ++ footerText ((target o).env s o) := by
  obtain ⟨_, _, ⟨⟩, ⟨⟩, hcontents⟩ := h.contents
  have hemitted : r.emissions.map (·.definition) = s.definitions := h.definitions.trans hdefinitions
  have hnamed : ∀ e ∈ r.emissions, IsNamed e.definition := fun e he => isNamed_of_mem hs (hemitted ▸ List.mem_map_of_mem he)
  obtain ⟨parts, hparts, hrender⟩ := render_written h.asked (fun e he => absurd he List.not_mem_nil) hnamed
  rw [hemitted] at hparts hrender
  have hmove : (target o).move ((target o).env s o) { source := lastScope {} r.emissions, target := {} } = [] :=
    Language.move_eq_nil .fbs o _ (by decide) _
  have hraw : ∀ text : String, Writer.render "  " [.raw text] = text := fun _ => String.empty_append
  have hcalm : ∀ text : String, Calm [.raw text] := fun _ _ _ => rfl
  refine ⟨parts, hparts, ?_⟩
  rw [hcontents, hmove, List.append_nil, List.append_assoc]
  show Writer.render "  " (_ ++ ([.raw (Writer.render "  " _)] ++ footer _)) = _
  rw [Writer.render_append (Settles.blank.after _).calm, Writer.render_append (hcalm _), hraw, ← String.append_assoc]
  exact congrArg (headerText _ ++ · ++ footerText _) hrender

/-! ## Files of contained texts -/

/-- Every part of a file is read as what it was written for. -/
structure PartsRead (env : Env) (ds : List Definition) (parts : List String) : Prop where
  header : ReadsAs (headerText env) []
  definitions : List.Forall₂ (fun d part => ReadsAs part [.definition d.name]) ds parts
  footer : ReadsAs (footerText env) []

/-- What is found in code is found in its text. -/
theorem Reads.readsAs {c : Code} {found : List Item} (h : Reads c 0 found 0) : ReadsAs (Writer.render "  " c) found := by
  have hblank : ∀ x ∈ "  ".toList, x = ' ' := List.forall_mem_cons.2 ⟨rfl, List.forall_mem_singleton.2 rfl⟩
  obtain ⟨text, hrun, hread⟩ := h { unit := "  " } rfl rfl hblank
  rw [Writer.render, hrun, String.empty_append]
  exact hread

/-- Lines that are comments or empty are skipped. -/
theorem readsAs_comments {bs : List String} {ms : List (List Char)} (hbs : List.Forall₂ (Writer.IsBlock "") bs ms)
    (hms : ∀ m ∈ ms, m = [] ∨ ∃ s, m = '/' :: '/' :: s ∧ '\n' ∉ s) : ReadsAs (joined bs) [] := by
  induction hbs with
  | nil => exact fun is => by simp [joined]
  | @cons b m bs ms hb _ ih =>
    obtain ⟨hm, hms⟩ := List.forall_mem_cons.1 hms
    have htext : b = String.ofList m := by
      rcases hb with hb | ⟨rfl, rfl⟩
      · rw [hb, String.empty_append]
      · rfl
    have hblock : ReadsAs (b ++ "\n") [] := by
      intro is
      rw [htext, String.toList_append, String.toList_ofList, List.append_nil]
      rcases hm with rfl | ⟨s, rfl, hs⟩
      · rfl
      · exact read_comment hs 0 is
    have hcons : joined (b :: bs) = b ++ "\n" ++ joined bs := by simp [joined]
    rw [hcons]
    exact hblock.append (ih hms)

/-- The header is a comment. A backslash at its end goes, and the empty line behind it ends the comment. -/
theorem readsAs_headerText (h : '\n' ∉ env.schema.fileName.toList) : ReadsAs (headerText env) [] := by
  let rest := " Generated from ".toList ++ env.schema.fileName.toList
  have htext : (s!"// Generated from {env.schema.fileName}").toList = '/' :: '/' :: rest := by simp [rest, toString]
  have hrest : '\n' ∉ rest := by
    rw [List.mem_append, not_or]
    exact ⟨by decide, h⟩
  have hrender : headerText env = ([('/' :: '/' :: rest), []].foldl Writer.putPiece { unit := "  " }).text := by
    have hsplit : (s!"// Generated from {env.schema.fileName}").toList.splitOn '\n' = [('/' :: '/' :: rest)] := by
      rw [htext, List.splitOn_eq_singleton (by simpa using hrest)]
    have hlines : headerText env = (([('/' :: '/' :: rest)] ++ [[]]).foldl Writer.putLine { unit := "  " }).text := by
      rw [List.foldl_append, ← hsplit]
      rfl
    rw [hlines, Writer.foldl_putLine_eq]
    simp [Writer.substitute_nil]
  obtain ⟨bs, hbs, hjoined⟩ := Writer.foldl_putPiece (w := { unit := "  " }) rfl
    (show ∀ q ∈ [('/' :: '/' :: rest), []].getLast?, q.getLast? ≠ some '\\' by simp)
  have hpieces : ∀ m ∈ Writer.spliced [('/' :: '/' :: rest), []], m = [] ∨ ∃ s, m = '/' :: '/' :: s ∧ '\n' ∉ s := by
    simp only [Writer.spliced]
    split
    · have hne : rest ≠ [] := by simp [rest]
      refine List.forall_mem_singleton.2 (.inr ⟨rest.dropLast, ?_, fun hmem => hrest (List.dropLast_subset rest hmem)⟩)
      simp [List.dropLast_cons_of_ne_nil, hne]
    · exact List.forall_mem_cons.2 ⟨.inr ⟨rest, rfl, hrest⟩, by simp⟩
  rw [hrender, hjoined, String.empty_append]
  exact readsAs_comments hbs hpieces

/-- A statement that starts with another word says nothing. -/
theorem Reads.statement (word rest : String) {text : String} (hword : NameText word.toList) (hne : word.toList ≠ [])
    (hother : word.toList ≠ "namespace".toList) (hrest : Passes rest.toList)
    (htext : text.toList = (word.toList ++ [' ']) ++ (rest.toList ++ [';'])) : Reads (Code.line text) 0 [] 0 := by
  refine .line ?_ ?_ fun is => ?_
  · rw [htext]
    simp [hword.not_mem (show isNameChar '\n' = false by decide), hrest.noBreak]
  · rw [htext, ← List.append_assoc, List.getLast?_concat]
    decide
  · have hstart : (idle 0 is).read (word.toList ++ [' ']) = { words := [word.toList], items := is } := behind_word hword hne
    have hbehind := hrest.outside [word.toList] is { words := [word.toList], items := is } ⟨rfl, rfl, List.prefix_refl _, rfl⟩
    rw [htext, List.append_assoc, read_append, hstart, List.append_assoc, read_append, List.singleton_append, read_cons,
      hbehind.close hother, List.append_nil]
    rfl

/-- Nothing is found in texts in which nothing is found line by line. -/
theorem Reads.texts {ss : List String} (h : ∀ s ∈ ss, Reads (Code.line s) 0 [] 0) : Reads (texts ss) 0 [] 0 := by
  have htexts : Code.texts ss = ss.flatMap fun (s : String) => Code.line s := by simp [Code.texts, Code.line, List.map_eq_flatMap]
  rw [htexts]
  exact .flatMap h

/-- Nothing is found in the footer. -/
theorem readsAs_footerText (hnames : Validity.checkNames env.schema = .ok ())
    (hidentifier : ∀ id ∈ env.schema.fileIdentifier, Quotable id.toList)
    (hextension : ∀ x ∈ env.schema.fileExtension, Quotable x.toList) : ReadsAs (footerText env) [] := by
  refine Reads.readsAs (.texts ?_)
  have hquoted : ∀ word text : String, NameText word.toList → word.toList ≠ [] → word.toList ≠ "namespace".toList →
      Quotable text.toList → Reads (Code.line (word ++ " \"" ++ text ++ "\";")) 0 [] 0 := by
    intro word text hword hne hother htext
    refine .statement word ("\"" ++ text ++ "\"") hword hne hother ?_ (by simp)
    have hrest : ("\"" ++ text ++ "\"").toList = '"' :: (text.toList ++ ['"']) := by simp
    rw [hrest]
    exact .quoted htext
  intro text htext
  simp only [List.mem_append, Option.mem_toList, Option.map_eq_some_iff] at htext
  rcases htext with (⟨d, hd, rfl⟩ | ⟨id, hid, rfl⟩) | ⟨x, hx, rfl⟩
  · obtain ⟨i, _, hi⟩ := Option.bind_eq_some_iff.1 hd
    obtain ⟨hname, hscope⟩ := (Validity.checkNames_eq_ok.1 hnames).2.1 d (List.mem_of_getElem? hi)
    refine .statement "root_type" d.qualifiedName (List.all_eq_true.1 (by decide)) (by decide) (by decide)
      (.of_quiet (NameText.quiet (Namespace.qualify_nameText hscope hname))) (by simp [toString])
  · exact hquoted "file_identifier" id (List.all_eq_true.1 (by decide)) (by decide) (by decide) (hidentifier id hid)
  · exact hquoted "file_extension" x (List.all_eq_true.1 (by decide)) (by decide) (by decide) (hextension x hx)

/-- If no text gets out of its place, every part is read as what it was written for. -/
theorem partsRead_of_contained {s : Schema} (hs : s.validate = .ok ()) (hcontained : Contained s) (hconstants : ConstantsQuiet s)
    {parts : List String} (hparts : List.Forall₂ (IsPart ((target o).env s o)) s.definitions parts) :
    PartsRead ((target o).env s o) s.definitions parts where
  header := readsAs_headerText hcontained.fileName
  definitions := by
    have hnames : Validity.checkNames s = .ok () := (Schema.validate_eq_ok.1 hs).1
    have hread : ∀ d ∈ s.definitions, ∀ part, IsPart ((target o).env s o) d part → ReadsAs part [.definition d.name] := by
      rintro d hd _ ⟨code, hcode, rfl⟩
      have hwithin := Schema.definitions_within d hd
      have htexts := hcontained.definitions d hd
      refine Reads.readsAs (Reads.append (x := [.definition d.name]) (y := []) ?_ .blank)
      have hnames : Validity.checkNames ((target o).env s o).schema = .ok () := hnames
      cases d with
      | enum i e => exact reads_enumCode hnames hwithin htexts hcode
      | struct i d =>
        refine reads_objectCode hnames ?_ hconstants hwithin htexts hcode
        cases d.fixed <;> decide
    exact ((List.forall₂_and_left (p := (· ∈ s.definitions)) _ _).2 ⟨fun _ h => h, hparts⟩).imp fun d part h => hread d h.1 part h.2
  footer := readsAs_footerText (Schema.validate_eq_ok.1 hs).1 hcontained.identifier hcontained.extension

/-- In front of a definition a statement is found unless the move to it is idle. -/
theorem readsAs_leading {d : Definition} (hscope : d.scope.Named) (move : Transition) :
    ReadsAs (leading d move) (if move.isNoop then [] else [.scope d.scope]) := by
  unfold leading
  split
  · exact fun is => by simp
  · exact readsAs_statementText hscope

/-- Parts that are read as their definitions are read, with the statements between them, as the moves ask. -/
theorem readsAs_joinedParts {ds : List Definition} {parts : List String}
    (h : List.Forall₂ (fun d part => ReadsAs part [.definition d.name]) ds parts) (hnamed : ∀ d ∈ ds, IsNamed d) :
    ∀ n, ReadsAs (joinedParts n ds parts) (announcedAll n ds) := by
  induction h with
  | nil => exact fun n is => by simp [joinedParts, announcedAll]
  | @cons d part ds parts hpart _ ih =>
    intro n
    obtain ⟨hd, hds⟩ := List.forall_mem_cons.1 hnamed
    rw [joinedParts_cons, announcedAll_cons, announced]
    exact ((readsAs_leading hd.2 _).append hpart).append (ih hds d.scope)

/-- A file whose parts are read as what they were written for is read as the moves between its definitions ask. -/
theorem PartsRead.readsAs {s : Schema} (hs : s.validate = .ok ()) {parts : List String}
    (h : PartsRead ((target o).env s o) s.definitions parts) :
    ReadsAs (headerText ((target o).env s o) ++ joinedParts .root s.definitions parts ++ footerText ((target o).env s o))
      (announcedAll .root s.definitions) := by
  have hread := (h.header.append (readsAs_joinedParts h.definitions (fun d hd => isNamed_of_mem hs hd) .root)).append h.footer
  rwa [List.nil_append, List.append_nil] at hread

/-! ## Constants of a document -/

/-- A text that is accepted for a scalar is a number. -/
theorem quiet_of_check {b : BaseType} {text : String} (h : Default.check b text = .ok ()) : Quiet text.toList := by
  unfold Default.check at h
  split at h
  · split at h
    next => cases h
    next n hn => exact quiet_of_read? hn
  · have hread : ∃ v, readSigned? 128 text = some v := by
      split at h
      next => cases h
      next v _ _ hv _ => exact ⟨v, hv⟩
      next v hv _ => exact ⟨v, hv⟩
    obtain ⟨v, hv⟩ := hread
    obtain ⟨w, hw, _⟩ := Option.bind_eq_some_iff.1 hv
    obtain ⟨_, hnumeral⟩ := Numeral.read?_of_readInt? hw
    exact quiet_of_read? hnumeral

/-- The default of a field is written with quiet characters, whatever the document has. -/
theorem quiet_constant {enums : List EnumDef} {t : TypeDesc} {context text : String} {declared : Option Json}
    (h : Default.constant enums t context declared = .ok text) : Quiet text.toList := by
  cases declared with
  | none =>
    cases h
    decide
  | some raw =>
    obtain ⟨_, h⟩ := ite_error_eq_ok.1 h
    split at h
    next => cases h
    next =>
      split at h
      next => cases h
      next hcheck =>
        cases h
        exact quiet_of_check hcheck

/-- In the schema of a document no constant opens or closes anything. -/
theorem constantsQuiet_of_loaded {doc : SchemaDoc} {names : NameTable} {declared : List StructDef} {s : Schema}
    (h : Loaded doc names declared s) : ConstantsQuiet s := by
  intro d hd f hf _
  obtain ⟨i, hi⟩ := List.mem_iff_getElem?.1 hd
  by_cases hdisc : f.isDiscriminant = true
  · rw [h.hidden_constant hi f (List.mem_filter.2 ⟨hf, hdisc⟩)]
    decide
  · obtain ⟨sd, _, hgives⟩ := h.declared_gives hi
    obtain ⟨decl, hdecl⟩ := exists_of_mem_forall₂ hgives (List.mem_filter.2 ⟨hf, by simpa using hdisc⟩)
    exact quiet_constant hdecl.constant

/-! ## Moves and statements -/

/-- The move to a definition starts at the namespace of the one before. -/
theorem visit_getElem? {d : Definition} {rest : List Namespace} : ∀ (es : List Emission) (n : Namespace),
    (Transition.visit n (es.map (·.definition.scope) ++ d.scope :: rest))[es.length]? =
      some { source := lastScope n es, target := d.scope }
  | [], _ => rfl
  | e :: es, _ => visit_getElem? es e.definition.scope

/-- The namespaces of a valid schema in the schema language. A file is a header, a part for each definition and a footer, and there is
a statement in front of a part exactly if the move to the definition, from the namespace that is open, is not idle. If every part is
read as what it was written for, the definitions are read in order with exactly these statements; with a namespace in effect that
starts at the root and is replaced by every statement, each definition then stands in its own namespace. Every part is read so if no
text of the schema gets out of its place. The schema of a document is always written, and its constants stay in their places. -/
theorem namespaces_followed {s : Schema} (hs : s.validate = .ok ()) (o : Options) :
    let t := target o
    let env := t.env s o
    let moves := Transition.visit .root (s.definitions.map (·.scope))
    (∀ done d rest b, s.definitions = done ++ d :: rest →
      done.foldlM (t.addDefinition env) { state := .start .root } = .ok b →
      moves[done.length]? = some { source := b.scope, target := d.scope }) ∧
    (∀ files, t.render s o = .ok files → ∃ parts contents,
      files = [{ path := t.singlePath env, contents }] ∧
      contents = headerText env ++ String.join (List.zipWith (· ++ ·) (List.zipWith leading s.definitions moves) parts) ++
        footerText env ∧
      List.Forall₂ (IsPart env) s.definitions parts ∧
      (PartsRead env s.definitions parts →
        items contents = (List.zipWith announced s.definitions moves).flatten ∧
        effective .root (items contents) = s.definitions.map fun d => (d.scope, d.name)) ∧
      (Contained s → ConstantsQuiet s → PartsRead env s.definitions parts)) ∧
    ∀ doc, Schema.ofDocument doc = .ok s → ConstantsQuiet s ∧ ∃ files, t.render s o = .ok files := by
  intro t env moves
  refine ⟨?_, ?_, ?_⟩
  · intro done d rest b hdefinitions hfold
    -- the definitions before this one have left the namespace of the last of them, where the move starts
    obtain ⟨es, -, rfl, rfl⟩ := (Target.foldlM_addDefinition_eq_ok_iff [] rfl).1 hfold
    have hscopes : s.definitions.map (·.scope) = es.map (·.definition.scope) ++ d.scope :: rest.map (·.scope) := by
      rw [hdefinitions, List.map_append, List.map_cons, List.map_map]
      rfl
    simp only [moves, hscopes, List.length_map]
    exact visit_getElem? es .root
  · intro files hfiles
    obtain ⟨-, runs, hgroups, hwrote, rfl⟩ := Target.render_eq_ok_iff.1 hfiles
    -- all definitions go into one file
    obtain ⟨r, rfl, hgroup⟩ := List.map_eq_singleton_iff.1 hgroups
    have hr := hwrote r (List.mem_singleton_self r)
    obtain ⟨parts, hparts, hcontents⟩ := contents_eq hs hr (by rw [hgroup]; rfl)
    refine ⟨parts, r.file.contents, ?_, hcontents, hparts, fun hread => ?_, fun hcontained hconstants => ?_⟩
    · have hpath : r.file.path = t.singlePath env := hr.path.trans (by rw [hgroup])
      rw [List.map_singleton, ← hpath]
      rfl
    · have hitems : items r.file.contents = announcedAll .root s.definitions := by
        rw [hcontents]
        exact (hread.readsAs hs).items_eq
      refine ⟨hitems, ?_⟩
      rw [hitems]
      exact effective_announcedAll s.definitions .root
    · exact partsRead_of_contained hs hcontained hconstants hparts
  · intro doc hdoc
    obtain ⟨names, declared, hloaded⟩ := Schema.ofDocument_loaded hdoc
    obtain ⟨files, hfiles, -⟩ := (Language.fbs.target_total o hloaded.closed).renders hs
    exact ⟨constantsQuiet_of_loaded hloaded, files, hfiles⟩

end Fbs

/-- Two namespaces, one around the other, and definitions outside of both. -/
def wanderingDoc : SchemaDoc where
  enums := [
    { name := "E", scope := "a.b", values := [{ name := "V" }], doc := ["namespace Q;"] },
    { name := "F", scope := "a.b", values := [{ name := "V" }] }, { name := "G", values := [{ name := "table" }] }]
  structs := [
    { name := "T", attributes := [("note", "namespace Q;")] }, { name := "U", scope := "a" },
    { name := "S", scope := "a.b", fields := [{ name := "x", type := "int", default := some (.string "+7"), doc := ["\x7b"] }] }]
  fileIdentifier := some "WAND"

open Fbs in
theorem wanderingDoc_namespaces : ∃ s file, Schema.ofDocument wanderingDoc = .ok s ∧ (target {}).render s {} = .ok [file] ∧
    items file.contents =
      [.scope ⟨["a", "b"]⟩, .definition "E", .definition "F", .scope .root, .definition "G", .definition "T",
        .scope ⟨["a"]⟩, .definition "U", .scope ⟨["a", "b"]⟩, .definition "S"] ∧
    effective .root (items file.contents) =
      [(⟨["a", "b"]⟩, "E"), (⟨["a", "b"]⟩, "F"), (.root, "G"), (.root, "T"), (⟨["a"]⟩, "U"), (⟨["a", "b"]⟩, "S")] := by
  obtain ⟨s, hs, hseen⟩ := Schema.exists_ofDocument wanderingDoc
    (fun s => (announcedAll .root s.definitions, s.definitions.map (fun d => (d.scope, d.name)), decide (Contained s)))
    ([.scope ⟨["a", "b"]⟩, .definition "E", .definition "F", .scope .root, .definition "G", .definition "T",
      .scope ⟨["a"]⟩, .definition "U", .scope ⟨["a", "b"]⟩, .definition "S"],
      [(⟨["a", "b"]⟩, "E"), (⟨["a", "b"]⟩, "F"), (.root, "G"), (.root, "T"), (⟨["a"]⟩, "U"), (⟨["a", "b"]⟩, "S")], true)
    (by decide +kernel)
  simp only [Prod.mk.injEq, decide_eq_true_eq] at hseen
  obtain ⟨hitems, heffective, hcontained⟩ := hseen
  obtain ⟨names, declared, hloaded⟩ := Schema.ofDocument_loaded hs
  obtain ⟨-, hfiles, hreturns⟩ := namespaces_followed hloaded.valid {}
  obtain ⟨hconstants, files, hrender⟩ := hreturns wanderingDoc hs
  obtain ⟨parts, contents, rfl, -, -, hread, hparts⟩ := hfiles files hrender
  obtain ⟨hfound, hstand⟩ := hread (hparts hcontained hconstants)
  exact ⟨s, _, hs, hrender, hfound.trans hitems, hstand.trans heffective⟩

/-- A table whose documentation goes on with a statement in a line of its own. -/
def strayDoc : SchemaDoc where
  structs := [{ name := "T", doc := ["x\nnamespace Q;"] }]

open Fbs in
/-- The second line of the documentation stands outside of the comment, and the table in a namespace that is not its own. -/
theorem strayDoc_namespaces : ∃ s file, Schema.ofDocument strayDoc = .ok s ∧ (target {}).render s {} = .ok [file] ∧
    s.definitions.map (fun d => (d.scope, d.name)) = [(.root, "T")] ∧
    file.contents = "// Generated from \n\n/// x\nnamespace Q;\ntable T \x7b\n\x7d\n\n" ∧
    items file.contents = [.scope ⟨["Q"]⟩, .definition "T"] ∧ effective .root (items file.contents) = [(⟨["Q"]⟩, "T")] := by
  obtain ⟨s, hs, hseen⟩ := Schema.exists_ofDocument strayDoc
    (fun s => (s.definitions.map (fun d => (d.scope, d.name)), ((target {}).render s {}).toOption))
    ([(.root, "T")], some [{
      path := "_generated.fbs", contents := "// Generated from \n\n/// x\nnamespace Q;\ntable T \x7b\n\x7d\n\n" }]) (by decide +kernel)
  obtain ⟨hdefinitions, hfiles⟩ := Prod.mk.inj hseen
  refine ⟨s, _, hs, eq_ok_of_toOption hfiles, hdefinitions, rfl, ?_, ?_⟩
  · decide +kernel
  · decide +kernel

end FlatSchema

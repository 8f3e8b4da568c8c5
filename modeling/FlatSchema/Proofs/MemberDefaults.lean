import FlatSchema.Proofs.EnumValues
import FlatSchema.Proofs.Numerals
import FlatSchema.Proofs.TypeText

/-!
# Members as defaults

The default of a field of an enum may name a member, or members that are bits. It becomes the number of the member with its sign,
which in an enum of 64 bits without a sign is not always its number, and the words for truth values come first. Otherwise it is the
text of the value (`Schema.ofDocument_memberDefault`).
-/

namespace FlatSchema

/-! ## Words in a text -/

namespace Text

/-- A text of blanks. -/
def Blank (s : List Char) : Prop := ∀ c ∈ s, isBlank c = true

instance (s : List Char) : Decidable (Blank s) := decidable_of_iff (s.all isBlank = true) List.all_eq_true

/-- A word has characters, and none of them is blank. -/
structure IsWord (w : List Char) : Prop where
  nonempty : w ≠ []
  solid : ∀ c ∈ w, isBlank c = false

/-- A text consists of words in their order, with blanks around and between them. -/
inductive Spaced : List (List Char) → List Char → Prop
  | nil {b : List Char} (hb : Blank b) : Spaced [] b
  | cons {b w s : List Char} {ws : List (List Char)} (hb : Blank b) (hs : s.head?.all isBlank = true) (h : Spaced ws s) :
    Spaced (w :: ws) (b ++ w ++ s)

@[simp]
theorem words_nil : words [] = [] := rfl

/-- A blank separates words. -/
theorem words_append_cons {c : Char} (hc : isBlank c = true) (s t : List Char) : words (s ++ c :: t) = words s ++ words t := by
  rw [words, List.splitOnP_append_cons s t hc, List.filter_append]
  rfl

/-- Blanks in front are no words. -/
theorem words_blank_append {b : List Char} (hb : Blank b) (s : List Char) : words (b ++ s) = words s := by
  induction b with
  | nil => rfl
  | cons c b ih =>
    calc words (c :: b ++ s) = words [] ++ words (b ++ s) := words_append_cons (hb c List.mem_cons_self) [] (b ++ s)
      _ = words (b ++ s) := rfl
      _ = words s := ih fun d hd => hb d (List.mem_cons_of_mem c hd)

/-- Blanks behind are no words. -/
theorem words_append_blank {b : List Char} (hb : Blank b) (s : List Char) : words (s ++ b) = words s := by
  cases b with
  | nil => rw [List.append_nil]
  | cons c b =>
    have hrest : words b = [] := by
      simpa using words_blank_append (fun d hd => hb d (List.mem_cons_of_mem c hd)) []
    rw [words_append_cons (hb c List.mem_cons_self), hrest, List.append_nil]

/-- A word is its own only word. -/
theorem words_of_isWord {w : List Char} (h : IsWord w) : words w = [w] := by
  rw [words, List.splitOnP_eq_singleton h.solid]
  simp [h.nonempty]

/-- Words with blanks between them are found again. -/
theorem Spaced.words_eq {ws : List (List Char)} {s : List Char} (h : Spaced ws s) (hws : ∀ w ∈ ws, IsWord w) : words s = ws := by
  induction h with
  | nil hb => simpa using words_blank_append hb []
  | @cons b w s ws hb hs _ ih =>
    have hw := words_of_isWord (hws w List.mem_cons_self)
    have hrest := ih fun w' hw' => hws w' (List.mem_cons_of_mem w hw')
    rw [List.append_assoc, words_blank_append hb]
    cases s with
    | nil =>
      rw [List.append_nil, hw, ← hrest]
      rfl
    | cons c s =>
      have hc : isBlank c = true := hs
      have hskip : words (c :: s) = words s := words_append_cons hc [] s
      rw [words_append_cons hc, hw, ← hrest, hskip]
      rfl

/-- What trimming takes away is blank. -/
theorem trim_spec (s : List Char) : ∃ b b', Blank b ∧ Blank b' ∧ s = b ++ trim s ++ b' := by
  have hblank : ∀ t : List Char, Blank (t.takeWhile isBlank) := fun t c hc => List.mem_takeWhile_imp hc
  refine ⟨s.takeWhile isBlank, ((trimStart s).reverse.takeWhile isBlank).reverse, hblank s, ?_, ?_⟩
  · intro c hc
    exact hblank _ c (List.mem_reverse.1 hc)
  · rw [trim, trimEnd, List.append_assoc, ← List.reverse_append, List.takeWhile_append_dropWhile, List.reverse_reverse, trimStart,
      List.takeWhile_append_dropWhile]

/-- Trimming keeps the words. -/
theorem words_trim (s : List Char) : words (trim s) = words s := by
  obtain ⟨b, b', hb, hb', hs⟩ := trim_spec s
  conv => rhs; rw [hs]
  rw [words_append_blank hb', words_blank_append hb]

/-- A text that starts with a word starts with no blank. -/
theorem IsWord.dropWhile_append {w : List Char} (hw : IsWord w) (s : List Char) : (w ++ s).dropWhile isBlank = w ++ s := by
  obtain ⟨c, t, rfl⟩ := List.exists_cons_of_ne_nil hw.nonempty
  rw [List.cons_append, List.dropWhile_cons_of_neg]
  simp [hw.solid c List.mem_cons_self]

/-- A word with blanks around it is trimmed to the word. -/
theorem Spaced.trim_eq {w s : List Char} (h : Spaced [w] s) (hw : IsWord w) : trim s = w := by
  have hreverse : IsWord w.reverse :=
    ⟨by simpa using hw.nonempty, fun c hc => hw.solid c (List.mem_reverse.1 hc)⟩
  cases h with
  | @cons b _ b' _ hb _ h =>
    cases h with
    | nil hb' =>
      have hend : Blank b'.reverse := fun c hc => hb' c (List.mem_reverse.1 hc)
      rw [trim, trimStart, List.append_assoc, List.dropWhile_append_of_pos hb, hw.dropWhile_append, trimEnd, List.reverse_append,
        List.dropWhile_append_of_pos hend, ← List.append_nil w.reverse, hreverse.dropWhile_append, List.append_nil,
        List.reverse_reverse]

end Text

/-- An identifier is a word. -/
theorem isWord_of_isIdentifier {name : String} (h : isIdentifier name = true) : Text.IsWord name.toList := by
  obtain ⟨c, t, hname, hchars⟩ := isIdentifier_chars h
  refine ⟨by simp [hname], fun d hd => ?_⟩
  have hrange := isWordChar_range (hchars d hd)
  exact isBlank_of_range (by omega)

/-! ## What a text names -/

/-- The bits of members together. -/
def EnumVal.combined (ms : List EnumVal) : BitVec 64 := ms.foldl (fun bits m => bits ||| BitVec.ofInt 64 m.value) 0

/-- A text names a value of an enum: it is the name of a member with that value, or in an enum of bit flags the names of members
whose bits make up the value. Blanks stand between and around the names. -/
def EnumDef.Names (e : EnumDef) (text : String) (v : Int) : Prop :=
  ∃ ms : List EnumVal, (∀ m ∈ ms, m ∈ e.vals) ∧ Text.Spaced (ms.map (·.name.toList)) text.toList ∧
    if e.isBitFlags then v = (EnumVal.combined ms).toInt else ms.map (·.value) = [v]

/-- The members of an accepted enum have identifiers for names, which tell them apart, and values of its type. -/
structure EnumDef.Sound (e : EnumDef) : Prop where
  integer : e.underlying.base.isInteger = true
  identifiers : ∀ m ∈ e.vals, isIdentifier m.name = true
  distinct : (e.vals.map (·.name)).Nodup
  values : ∀ m ∈ e.vals, e.underlying.base.Admits m.value

namespace EnumDef

variable {e : EnumDef} {text : String} {v : Int}

/-- A member is found by its name, since no two of them have one name. -/
theorem Sound.val?_eq (he : e.Sound) {m : EnumVal} (hm : m ∈ e.vals) : e.val? m.name = some m := find?_of_nodup he.distinct hm

/-- Looking up members one after the other combines their bits. -/
theorem foldlM_val? (he : e.Sound) {ms : List EnumVal} (hms : ∀ m ∈ ms, m ∈ e.vals) (bits : BitVec 64) :
    (ms.map (·.name.toList)).foldlM (fun bits w => (e.val? (String.ofList w)).map fun v => or64 bits v.value) bits.toInt =
      some (ms.foldl (fun bits m => bits ||| BitVec.ofInt 64 m.value) bits).toInt := by
  induction ms generalizing bits with
  | nil => rfl
  | cons m rest ih =>
    rw [List.map_cons, List.foldlM_cons, String.ofList_toList, he.val?_eq (hms m List.mem_cons_self), Option.map_some,
      or64_eq_toInt, BitVec.ofInt_toInt, List.foldl_cons]
    exact ih (fun m' hm' => hms m' (List.mem_cons_of_mem m hm')) _

/-- The value that a text names is found. -/
theorem Names.memberValue? (he : e.Sound) (h : e.Names text v) : Default.memberValue? e (Text.trim text.toList) = some v := by
  obtain ⟨ms, hms, hspaced, hv⟩ := h
  have hwords : ∀ w ∈ ms.map (·.name.toList), Text.IsWord w := by
    intro w hw
    obtain ⟨m, hm, rfl⟩ := List.mem_map.1 hw
    exact isWord_of_isIdentifier (he.identifiers m (hms m hm))
  unfold Default.memberValue?
  split at hv
  next hflags =>
    rw [if_pos hflags, Text.words_trim, hspaced.words_eq hwords, hv]
    exact foldlM_val? he hms 0
  next hflags =>
    obtain ⟨m, rfl, rfl⟩ := List.map_eq_singleton_iff.1 hv
    rw [if_neg hflags, hspaced.trim_eq (hwords _ List.mem_cons_self), String.ofList_toList,
      he.val?_eq (hms m List.mem_cons_self), Option.map_some]

/-- Members taken together fit the type if each of them does: no bit is set that none of them sets. -/
theorem admits_foldl {b : BaseType} {ms : List EnumVal} (hms : ∀ m ∈ ms, b.Admits m.value) {bits : BitVec 64}
    (hbits : b.Admits bits.toInt) : b.Admits (ms.foldl (fun bits m => bits ||| BitVec.ofInt 64 m.value) bits).toInt := by
  induction ms generalizing bits with
  | nil => exact hbits
  | cons m rest ih =>
    have hm := hms m List.mem_cons_self
    have hvalue : (BitVec.ofInt 64 m.value).toInt = m.value := BitVec.toInt_ofInt_eq_self (by decide) hm.1.1 hm.1.2
    exact ih (fun m' hm' => hms m' (List.mem_cons_of_mem m hm')) (BaseType.admits_or hbits (hvalue.symm ▸ hm))

/-- The value that a text names is a value of the type. -/
theorem Names.admits (he : e.Sound) (h : e.Names text v) : e.underlying.base.Admits v := by
  obtain ⟨ms, hms, _, hv⟩ := h
  split at hv
  next =>
    subst hv
    exact admits_foldl (fun m hm => he.values m (hms m hm)) (BaseType.admits_bit he.integer).1
  next =>
    obtain ⟨m, rfl, rfl⟩ := List.map_eq_singleton_iff.1 hv
    exact he.values m (hms m List.mem_cons_self)

/-- The text of a value is that of the number with its sign unless 64 bits without a sign hold a negative one. -/
theorem valueText_eq_toString_iff (hv : IsInt64 v) : e.valueText v = toString v ↔ (e.underlying.base = .ulong → 0 ≤ v) := by
  unfold valueText
  split
  next hulong =>
    have hnat : toString (unsigned64 v) = toString (unsigned64 v : Int) := rfl
    rw [hnat, Text.toString_inj]
    simp only [hulong, forall_const]
    constructor
    · intro h
      omega
    · exact unsigned64_of_nonneg hv
  next hulong => simp [hulong]

/-- Different numbers are written differently. -/
theorem valueText_inj {w : Int} (hv : IsInt64 v) (hw : IsInt64 w) : e.valueText v = e.valueText w ↔ v = w := by
  unfold valueText
  split
  next =>
    have hnat : ∀ n : Nat, toString n = toString (n : Int) := fun _ => rfl
    rw [hnat, hnat, Text.toString_inj, Int.ofNat_inj, unsigned64_inj hv hw]
  next => exact Text.toString_inj

/-- One and zero are written as themselves. -/
theorem valueText_bit : e.valueText 1 = "1" ∧ e.valueText 0 = "0" := by
  unfold valueText
  split <;> decide

/-- What is written for a number is read as the type reads it. -/
theorem readInt?_valueText : Text.readInt? (e.valueText v).toList = some (e.underlying.base.reading v) := by
  unfold valueText BaseType.reading
  split
  next => exact Text.readInt?_toString (unsigned64 v : Int)
  next => exact Text.readInt?_toString v

end EnumDef

namespace Default

/-- The check of the number with its sign refuses a negative number in 64 bits without a sign, and nothing else that fits. -/
theorem check_toString {b : BaseType} {v : Int} (hint : b.isInteger = true) (hv : b.Admits v) :
    check b (toString v) = if b = .ulong ∧ v < 0 then .error (.outOfRange .ulong) else .ok () := by
  obtain ⟨hint64, bounds, hrange, hfits⟩ := hv
  rw [isInt64_iff] at hint64
  have hread : readSigned? 128 (toString v) = some v :=
    Text.readSigned?_toString (Int.le_trans (by decide) hint64.1) (Int.le_trans (Int.le_of_lt hint64.2) (by decide))
  rw [Option.mem_def] at hrange
  rw [check, BaseType.isFloat_of_isInteger hint, if_neg Bool.false_ne_true, hread, hrange]
  by_cases hb : b = .ulong
  · subst hb
    cases hrange
    by_cases hneg : v < 0
    · rw [if_pos ⟨rfl, hneg⟩]
      exact if_neg fun hin => Int.not_lt.2 hin.1 hneg
    · rw [if_neg fun h => hneg h.2]
      exact if_pos ⟨Int.not_lt.1 hneg, Int.le_trans (Int.le_of_lt hint64.2) (by decide)⟩
  · rw [BaseType.reading, if_neg hb] at hfits
    rw [if_neg fun h => hb h.1]
    exact if_pos hfits

/-- A number that fits the type and is not negative passes the check. -/
theorem check_of_nonneg {b : BaseType} {v : Int} (hint : b.isInteger = true) (hv : b.Admits v) (hnonneg : 0 ≤ v) :
    check b (toString v) = .ok () := by
  rw [check_toString hint hv, if_neg fun hneg => Int.not_lt.2 hnonneg hneg.2]

/-- Zero and one are texts of numbers of every integer type. -/
theorem check_bit {b : BaseType} (hint : b.isInteger = true) : check b "0" = .ok () ∧ check b "1" = .ok () := by
  obtain ⟨hzero, hone⟩ := BaseType.admits_bit hint
  have htexts : "0" = toString (0 : Int) ∧ "1" = toString (1 : Int) := ⟨rfl, rfl⟩
  rw [htexts.1, htexts.2]
  exact ⟨check_of_nonneg hint hzero (by decide), check_of_nonneg hint hone (by decide)⟩

/-- The number of named members is what a text stands for, unless it is the word for a truth value. -/
theorem ofString_of_names {enums : List EnumDef} {i : Nat} {e : EnumDef} (hi : enums[i]? = some e) (he : e.Sound) {text : String}
    {v : Int} (h : e.Names text v) :
    ofString enums (.enumeration e.underlying.base i) text =
      if trimmed text = "true" then "1" else if trimmed text = "false" then "0" else toString v := by
  have hvalue : ((some i).bind (enums[·]?)).bind (fun e => memberValue? e (Text.trim text.toList)) = some v := by
    rw [Option.bind_some, hi, Option.bind_some, h.memberValue? he]
  unfold ofString
  refine ite_congr rfl (fun _ => rfl) fun _ => ite_congr rfl (fun _ => rfl) fun _ => ?_
  dsimp only [TypeDesc.enumeration]
  rw [hvalue]

/-- What becomes of a default that names a value of an enum. -/
theorem constant_of_names {enums : List EnumDef} {i : Nat} {e : EnumDef} (hi : enums[i]? = some e) (he : e.Sound) {text : String}
    {v : Int} (h : e.Names text v) (context : String) :
    constant enums (.enumeration e.underlying.base i) context (some (.string text)) =
      if trimmed text = "true" then .ok "1"
      else if trimmed text = "false" then .ok "0"
      else if e.underlying.base = .ulong ∧ v < 0 then .error (.invalidValue (toString v) context (.outOfRange .ulong))
      else .ok (toString v) := by
  have hscalar : (TypeDesc.enumeration e.underlying.base i).isScalar = true := by
    simp [TypeDesc.enumeration, TypeDesc.isScalar, BaseType.isScalar, he.integer]
  have hbase : (TypeDesc.enumeration e.underlying.base i).base = e.underlying.base := rfl
  obtain ⟨hzero, hone⟩ := check_bit he.integer
  rw [constant, if_pos hscalar, textOf, ofString_of_names hi he h, hbase]
  by_cases htrue : trimmed text = "true"
  · simp only [if_pos htrue, hone]
  by_cases hfalse : trimmed text = "false"
  · simp only [if_neg htrue, if_pos hfalse, hzero]
  · have hcheck := check_toString he.integer (h.admits he)
    by_cases hneg : e.underlying.base = .ulong ∧ v < 0
    · rw [if_pos hneg] at hcheck
      simp only [if_neg htrue, if_neg hfalse, hcheck, if_pos hneg]
    · rw [if_neg hneg] at hcheck
      simp only [if_neg htrue, if_neg hfalse, hcheck, if_neg hneg]

end Default

/-! ## Accepted enums -/

/-- The enums of a loaded schema are sound. -/
theorem Schema.enum_sound {doc : SchemaDoc} {s : Schema} (h : Schema.ofDocument doc = .ok s) {e : EnumDef} (he : e ∈ s.enums)
    (hu : e.isUnion = false) : e.Sound := by
  obtain ⟨names, structs, h⟩ := Schema.ofDocument_loaded h
  obtain ⟨base, hbase, hint, _⟩ := (h.enum_resolved he).enum hu
  have hint64 := h.enum_isInt64 he
  obtain ⟨hnames, henums, _⟩ := Schema.validate_eq_ok.1 h.valid
  obtain ⟨low, high, hrange, hmembers⟩ := Validity.checkEnum_eq_ok.1 (henums e he)
  obtain ⟨hdistinct, _, hfits, _⟩ := Validity.checkMembers_eq_ok.1 hmembers
  have hinteger : e.underlying.base.isInteger = true := by rwa [hbase]
  refine ⟨hinteger, (Validity.checkNames_eq_ok.1 hnames).2.2.1 e he, hdistinct, fun m hm => ?_⟩
  exact ⟨hint64 m hm, (low, high), hrange, hfits m hm⟩

/-- The default of a field of an enum names a value. It becomes the text of that value, which is read as the value in the type of
the enum, exactly in these cases: the words for truth values name one and zero, and in 64 bits without a sign the highest bit of the
value is clear. Where it is set the default is refused. -/
theorem Schema.ofDocument_memberDefault {doc : SchemaDoc} {s : Schema} (h : Schema.ofDocument doc = .ok s) {i : Nat} {e : EnumDef}
    (he : s.enums[i]? = some e) (hu : e.isUnion = false) {default : String} {v : Int} (hv : e.Names default v)
    (context : String) :
    let constant := Default.constant s.enums (.enumeration e.underlying.base i) context (some (.string default))
    Text.readInt? (e.valueText v).toList = some (e.underlying.base.reading v) ∧ e.underlying.base.Admits v ∧
    (constant = .ok (e.valueText v) ↔
      (trimmed default = "true" → v = 1) ∧ (trimmed default = "false" → v = 0) ∧ (e.underlying.base = .ulong → 0 ≤ v)) ∧
    (trimmed default ≠ "true" → trimmed default ≠ "false" → e.underlying.base = .ulong → v < 0 →
      constant = .error (.invalidValue (toString v) context (.outOfRange .ulong))) := by
  have hsound := Schema.enum_sound h (List.mem_of_getElem? he) hu
  have hadmits := hv.admits hsound
  have hconstant := Default.constant_of_names he hsound hv context
  refine ⟨EnumDef.readInt?_valueText, hadmits, ?_, ?_⟩
  · have hone : (Except.ok "1" : Except LoadError String) = .ok (e.valueText v) ↔ v = 1 := by
      rw [← e.valueText_bit.1, Except.ok.injEq, eq_comm, EnumDef.valueText_inj hadmits.1 (by decide)]
    have hzero : (Except.ok "0" : Except LoadError String) = .ok (e.valueText v) ↔ v = 0 := by
      rw [← e.valueText_bit.2, Except.ok.injEq, eq_comm, EnumDef.valueText_inj hadmits.1 (by decide)]
    rw [hconstant]
    -- the words for truth values go before the names of members
    by_cases htrue : trimmed default = "true"
    · rw [if_pos htrue, hone]
      constructor
      · rintro rfl
        exact ⟨fun _ => rfl, fun hfalse => absurd (htrue.symm.trans hfalse) (by decide), fun _ => by decide⟩
      · rintro ⟨hv, _⟩
        exact hv htrue
    by_cases hfalse : trimmed default = "false"
    · rw [if_neg htrue, if_pos hfalse, hzero]
      constructor
      · rintro rfl
        exact ⟨fun h => absurd h htrue, fun _ => rfl, fun _ => by decide⟩
      · rintro ⟨_, hv, _⟩
        exact hv hfalse
    rw [if_neg htrue, if_neg hfalse]
    by_cases hneg : e.underlying.base = .ulong ∧ v < 0
    · rw [if_pos hneg]
      constructor
      · intro h
        cases h
      · rintro ⟨_, _, hpos⟩
        exact absurd (hpos hneg.1) (Int.not_le.2 hneg.2)
    · rw [if_neg hneg, Except.ok.injEq, eq_comm, EnumDef.valueText_eq_toString_iff hadmits.1]
      simp [htrue, hfalse]
  · intro htrue hfalse hulong hneg
    rw [hconstant, if_neg htrue, if_neg hfalse, if_pos ⟨hulong, hneg⟩]

/-- Bit flags in 64 bits without a sign. -/
def flagsDoc : SchemaDoc where
  enums := [
    { name := "E", underlying := some "ulong", attributes := [("bit_flags", "")],
      values := [{ name := "A" }, { name := "B" }, { name := "High", value := some 63 }] }]

/-- The enum of the document. -/
def flagsEnum : EnumDef where
  name := "E"
  attributes := [("bit_flags", "")]
  underlying := .plain .ulong
  vals := [{ name := "A", value := 1 }, { name := "B", value := 2 }, { name := "High", value := -9223372036854775808 }]

/-- Two members of a document of flags, with blanks around them and in another order than declared, are taken together. -/
theorem flagsDoc_memberDefault : ∃ s, Schema.ofDocument flagsDoc = .ok s ∧ s.enums[0]? = some flagsEnum ∧
    flagsEnum.Names " B\tA" 3 ∧ Default.constant s.enums (.enumeration .ulong 0) "T.e" (some (.string " B\tA")) = .ok "3" := by
  obtain ⟨s, hs, he⟩ := Schema.exists_ofDocument flagsDoc (·.enums[0]?) (some flagsEnum) (by decide +kernel)
  have hnames : flagsEnum.Names " B\tA" 3 := by
    refine ⟨[{ name := "B", value := 2 }, { name := "A", value := 1 }], by decide, ?_, by decide⟩
    exact .cons (b := [' ']) (s := ['\t', 'A']) (by decide) (by decide)
      (.cons (b := ['\t']) (s := []) (by decide) (by decide) (.nil (by decide)))
  exact ⟨s, hs, he, hnames, (Schema.ofDocument_memberDefault hs he rfl hnames "T.e").2.2.1.2 (by decide)⟩

/-- An enum of 64 bits without a sign with a value that has the highest bit set, and an enum with a word for a truth value. -/
def missedDoc : SchemaDoc where
  enums := [
    { name := "Level", underlying := some "ulong", values := [{ name := "Top", value := some (-1) }] },
    { name := "Word", values := [{ name := "true", value := some 5 }] }]

/-- Both enums are accepted. The default that names the highest level is refused, and the one that names the word becomes another
value than that of the word. -/
theorem missedDoc_memberDefault : ∃ s level word, Schema.ofDocument missedDoc = .ok s ∧ s.enums = [level, word] ∧
    level.Names "Top" (-1) ∧ level.valueText (-1) = "18446744073709551615" ∧
    Default.constant s.enums (.enumeration .ulong 0) "T.level" (some (.string "Top")) =
      .error (.invalidValue "-1" "T.level" (.outOfRange .ulong)) ∧
    word.Names "true" 5 ∧ word.valueText 5 = "5" ∧
    Default.constant s.enums (.enumeration .int 1) "T.word" (some (.string "true")) = .ok "1" := by
  obtain ⟨s, hs, henums⟩ := Schema.exists_ofDocument missedDoc (·.enums)
    [{ name := "Level", underlying := .plain .ulong, vals := [{ name := "Top", value := -1 }] },
      { name := "Word", underlying := .plain .int, vals := [{ name := "true", value := 5 }] }] (by decide +kernel)
  have hsingle : ∀ name : String, Text.Spaced [name.toList] name.toList := by
    intro name
    simpa using Text.Spaced.cons (w := name.toList) (b := []) (s := []) (by decide) (by decide) (.nil (by decide))
  refine ⟨s, _, _, hs, henums, ⟨[{ name := "Top", value := -1 }], by decide, hsingle "Top", by decide⟩, by decide, ?_,
    ⟨[{ name := "true", value := 5 }], by decide, hsingle "true", by decide⟩, by decide, ?_⟩
  · rw [henums]
    decide +kernel
  · rw [henums]
    decide +kernel

end FlatSchema

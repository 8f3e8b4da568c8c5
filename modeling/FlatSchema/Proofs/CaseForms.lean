import Mathlib
import FlatSchema.Proofs.NameChars

/-!
# Names in another case

Converting a name changes its underscores and the case of its letters and nothing else (`Case.skeleton_convert`), and an identifier
stays one (`Case.isIdentifier_apply`). Every case has a form: a converted name has it (`Case.written_convert`), and but for capitals
between underscores a name that has it stays as it is (`Case.convert_eq_self`), so that converting twice is converting once. Words in
capitals are not told apart as words in small letters are, so a name of capitals may be cut once more.
-/

namespace FlatSchema

/-- Only the underscore becomes an underscore in lower case. -/
theorem toLower_eq_underscore {c : Char} : c.toLower = '_' ↔ c = '_' := by
  constructor
  · intro h
    rcases toLower_eq_or_isLower c with hc | hc
    · rw [← hc, h]
    · rw [h] at hc
      cases hc
  · rintro rfl
    rfl

/-- Only the underscore becomes an underscore in upper case. -/
theorem toUpper_eq_underscore {c : Char} : c.toUpper = '_' ↔ c = '_' := by
  rw [← toLower_eq_underscore, Char.toLower_toUpper_eq_toLower, toLower_eq_underscore]

/-! ## Identifiers by their characters -/

/-- The characters that an identifier may start with. -/
def isWordStart (c : Char) : Bool := c.isAlpha || c == '_'

/-- An identifier starts with a letter or an underscore and goes on with those and digits. -/
theorem isIdentifier_iff {s : String} :
    isIdentifier s = true ↔ ∃ c rest, s.toList = c :: rest ∧ isWordStart c = true ∧ ∀ d ∈ rest, isWordChar d = true := by
  unfold isIdentifier
  split
  next hs => simp [hs]
  next c rest hs => simp [hs, isWordStart, isWordChar]

/-- Letters and the underscore stay so in both cases. -/
theorem charKind_isWordStart : CharKind (isWordStart · = true) where
  letter _ hc := Bool.or_eq_true_iff.2 (.inl hc)
  underscore := rfl

/-- The characters of words stay so in both cases. -/
theorem charKind_isWordChar : CharKind (isWordChar · = true) where
  letter _ hc := Bool.or_eq_true_iff.2 (.inl (Bool.or_eq_true_iff.2 (.inl hc)))
  underscore := rfl

namespace Case

/-! ## What stays of a name -/

/-- A name without its underscores and without the case of its letters. -/
def skeleton (s : List Char) : List Char := (s.filter (· ≠ '_')).map Char.toLower

@[simp] theorem skeleton_underscore (s : List Char) : skeleton ('_' :: s) = skeleton s := rfl

theorem skeleton_cons {c : Char} (h : c ≠ '_') (s : List Char) : skeleton (c :: s) = c.toLower :: skeleton s := by
  simp [skeleton, h]

/-- Two characters that differ in case are not told apart. -/
theorem skeleton_cons_congr {c d : Char} {s t : List Char} (hc : d.toLower = c.toLower) (hs : skeleton t = skeleton s) :
    skeleton (d :: t) = skeleton (c :: s) := by
  have hunderscore : d = '_' ↔ c = '_' := by rw [← toLower_eq_underscore, hc, toLower_eq_underscore]
  by_cases h : c = '_'
  · rw [h, hunderscore.2 h, skeleton_underscore, skeleton_underscore, hs]
  · rw [skeleton_cons h, skeleton_cons fun hd => h (hunderscore.1 hd), hc, hs]

/-- Changing the case of characters keeps the skeleton. -/
theorem skeleton_map {f : Char → Char} (hf : ∀ c, (f c).toLower = c.toLower) (s : List Char) :
    skeleton (s.map f) = skeleton s := by
  induction s with
  | nil => rfl
  | cons c s ih => exact skeleton_cons_congr (hf c) ih

/-- Dropping underscores keeps the skeleton. -/
theorem skeleton_camelRest (capital : Bool) (s : List Char) : skeleton (camelRest capital s) = skeleton s := by
  fun_induction camelRest capital s with
  | case1 => rfl
  | case2 capital c rest h ih =>
    obtain ⟨rfl, _⟩ : c = '_' ∧ _ := by simpa using h
    rw [ih, skeleton_underscore]
  | case3 capital c rest h ih =>
    refine skeleton_cons_congr ?_ ih
    split
    · exact c.toLower_toUpper_eq_toLower
    · rfl

/-- The camel case forms have the skeleton of the name. -/
theorem skeleton_camel {first : Char → Char} (hfirst : ∀ c, (first c).toLower = c.toLower) (s : List Char) :
    skeleton (camel first s) = skeleton s := by
  cases s with
  | nil => rfl
  | cons c rest => exact skeleton_cons_congr (hfirst c) (skeleton_camelRest false rest)

/-- Putting in underscores keeps the skeleton. -/
theorem skeleton_snakeRest (previous : Char) (s : List Char) : skeleton (snakeRest previous s) = skeleton s := by
  fun_induction snakeRest previous s with
  | case1 => rfl
  | case2 previous c rest h ih =>
    rw [skeleton_underscore]
    exact skeleton_cons_congr c.toLower_toLower_eq_toLower ih
  | case3 previous c rest h ih => exact skeleton_cons_congr c.toLower_toLower_eq_toLower ih

/-- The snake case forms have the skeleton of the name. -/
theorem skeleton_snakeForm (s : List Char) : skeleton (snakeForm s) = skeleton s := by
  cases s with
  | nil => rfl
  | cons c rest => exact skeleton_cons_congr c.toLower_toLower_eq_toLower (skeleton_snakeRest c rest)

/-- Converting a name keeps all but its underscores and the case of its letters. -/
theorem skeleton_convert (k : Case) (s : List Char) : skeleton (k.convert s) = skeleton s := by
  cases k with
  | keep => rfl
  | upperCamel => exact skeleton_camel Char.toLower_toUpper_eq_toLower s
  | lowerCamel => exact skeleton_camel Char.toLower_toLower_eq_toLower s
  | snake => exact skeleton_snakeForm s
  | screamingSnake => exact (skeleton_map Char.toLower_toUpper_eq_toLower _).trans (skeleton_snakeForm s)
  | allLower => exact skeleton_map Char.toLower_toLower_eq_toLower s
  | allUpper => exact skeleton_map Char.toLower_toUpper_eq_toLower s

/-! ## Identifiers stay identifiers -/

/-- The first character of a converted name is of the kind of the first character of the name. -/
theorem exists_convert_cons {P : Char → Prop} (hP : CharKind P) (k : Case) {c : Char} (hc : P c) (rest : List Char) :
    ∃ d rest', k.convert (c :: rest) = d :: rest' ∧ P d := by
  cases k with
  | keep => exact ⟨c, rest, rfl, hc⟩
  | upperCamel => exact ⟨c.toUpper, _, rfl, hP.toUpper hc⟩
  | lowerCamel => exact ⟨c.toLower, _, rfl, hP.toLower hc⟩
  | snake => exact ⟨c.toLower, _, rfl, hP.toLower hc⟩
  | screamingSnake => exact ⟨c.toLower.toUpper, _, rfl, hP.toUpper (hP.toLower hc)⟩
  | allLower => exact ⟨c.toLower, _, rfl, hP.toLower hc⟩
  | allUpper => exact ⟨c.toUpper, _, rfl, hP.toUpper hc⟩

/-- Every form of an identifier is an identifier. -/
theorem isIdentifier_apply (k : Case) {s : String} (h : isIdentifier s = true) : isIdentifier (k.apply s) = true := by
  obtain ⟨_, _, _, hword⟩ := isIdentifier_chars h
  obtain ⟨c, rest, hs, hstart, _⟩ := isIdentifier_iff.1 h
  obtain ⟨d, rest', hconvert, hd⟩ := exists_convert_cons charKind_isWordStart k hstart rest
  have hlist : (k.apply s).toList = d :: rest' := by rw [apply, String.toList_ofList, hs, hconvert]
  have hword' := charKind_isWordChar.mem_apply k hword
  rw [hlist] at hword'
  exact isIdentifier_iff.2 ⟨d, rest', hlist, hd, fun x hx => hword' x (List.mem_cons_of_mem d hx)⟩

/-! ## The form of a converted name -/

/-- A name has the form of a case. Between the first and the last character camel case has no underscores; the first character
makes the difference between its two kinds. -/
def Written : Case → List Char → Prop
  | .keep, _ => True
  | .upperCamel, s => (∀ c ∈ s.head?, c.isLower = false) ∧ '_' ∉ s.tail.dropLast
  | .lowerCamel, s => (∀ c ∈ s.head?, c.isUpper = false) ∧ '_' ∉ s.tail.dropLast
  | .snake, s | .allLower, s => ∀ c ∈ s, c.isUpper = false
  | .screamingSnake, s | .allUpper, s => ∀ c ∈ s, c.isLower = false

/-- A camel case form has no underscores, except that the last character may be one. -/
theorem underscore_not_mem_camelRest (capital : Bool) (s : List Char) : '_' ∉ (camelRest capital s).dropLast := by
  fun_induction camelRest capital s with
  | case1 => exact List.not_mem_nil
  | case2 capital c rest h ih => exact ih
  | case3 capital c rest h ih =>
    cases rest with
    | nil => exact List.not_mem_nil
    | cons d rest =>
      -- The character is not the last one, so it is no underscore.
      have hc : c ≠ '_' := by simpa using h
      have hout : (if capital then c.toUpper else c) ≠ '_' := by
        split
        · exact fun heq => hc (toUpper_eq_underscore.1 heq)
        · exact hc
      by_cases hend : camelRest false (d :: rest) = []
      · rw [hend]
        exact List.not_mem_nil
      · rw [List.dropLast_cons_of_ne_nil hend, List.mem_cons, not_or]
        exact ⟨Ne.symm hout, ih⟩

/-- Where there are no underscores to drop, nothing changes. -/
theorem camelRest_eq_self {s : List Char} (h : '_' ∉ s.dropLast) : camelRest false s = s := by
  induction s with
  | nil => rfl
  | cons c rest ih =>
    cases rest with
    | nil => simp [camelRest]
    | cons d rest =>
      rw [List.dropLast_cons_cons, List.mem_cons, not_or] at h
      rw [camelRest, ih h.2]
      simp [Ne.symm h.1]

theorem isUpper_snakeRest (previous : Char) (s : List Char) : ∀ c ∈ snakeRest previous s, c.isUpper = false := by
  fun_induction snakeRest previous s with
  | case1 => exact fun c hc => absurd hc List.not_mem_nil
  | case2 previous c rest h ih =>
    exact List.forall_mem_cons.2 ⟨rfl, List.forall_mem_cons.2 ⟨c.isUpper_toLower_eq_false, ih⟩⟩
  | case3 previous c rest h ih => exact List.forall_mem_cons.2 ⟨c.isUpper_toLower_eq_false, ih⟩

/-- A snake case form has no upper case letters. -/
theorem isUpper_snakeForm (s : List Char) : ∀ c ∈ snakeForm s, c.isUpper = false := by
  cases s with
  | nil => exact fun c hc => absurd hc List.not_mem_nil
  | cons c rest => exact List.forall_mem_cons.2 ⟨c.isUpper_toLower_eq_false, isUpper_snakeRest c rest⟩

theorem snakeRest_eq_self {s : List Char} (h : ∀ c ∈ s, c.isUpper = false) (previous : Char) : snakeRest previous s = s := by
  induction s generalizing previous with
  | nil => rfl
  | cons c rest ih =>
    obtain ⟨hc, hrest⟩ := List.forall_mem_cons.1 h
    rw [snakeRest, hc, ih hrest, Char.toLower_eq_of_not_isUpper (Bool.eq_false_iff.1 hc)]
    rfl

/-- A name without upper case letters is its own snake case form. -/
theorem snakeForm_eq_self {s : List Char} (h : ∀ c ∈ s, c.isUpper = false) : snakeForm s = s := by
  cases s with
  | nil => rfl
  | cons c rest =>
    obtain ⟨hc, hrest⟩ := List.forall_mem_cons.1 h
    rw [snakeForm, Char.toLower_eq_of_not_isUpper (Bool.eq_false_iff.1 hc), snakeRest_eq_self hrest]

/-- A name without underscores in its middle is its own camel case form. -/
theorem camel_eq_self {first : Char → Char} {s : List Char} (hfirst : ∀ c ∈ s.head?, first c = c) (h : '_' ∉ s.tail.dropLast) :
    camel first s = s := by
  cases s with
  | nil => rfl
  | cons c rest =>
    have hrest : camelRest false rest = rest := camelRest_eq_self h
    rw [camel, hfirst c rfl, hrest]

/-- A converted name has the form of its case. -/
theorem written_convert (k : Case) (s : List Char) : k.Written (k.convert s) := by
  cases k with
  | keep => trivial
  | upperCamel | lowerCamel =>
    cases s with
    | nil => simp [Written, convert, camel]
    | cons c rest => exact ⟨by simp [convert, camel], underscore_not_mem_camelRest false rest⟩
  | snake => exact isUpper_snakeForm s
  | screamingSnake => exact List.forall_mem_map.2 fun c _ => c.isLower_toUpper_eq_false
  | allLower => exact List.forall_mem_map.2 fun c _ => c.isUpper_toLower_eq_false
  | allUpper => exact List.forall_mem_map.2 fun c _ => c.isLower_toUpper_eq_false

/-- A name that has the form of a case stays as it is. -/
theorem convert_eq_self {k : Case} (hk : k ≠ .screamingSnake) {s : List Char} (h : k.Written s) : k.convert s = s := by
  have hlower : ∀ {c : Char}, c.isUpper = false → c.toLower = c := fun hc =>
    Char.toLower_eq_of_not_isUpper (Bool.eq_false_iff.1 hc)
  have hupper : ∀ {c : Char}, c.isLower = false → c.toUpper = c := fun hc =>
    Char.toUpper_eq_of_not_isLower (Bool.eq_false_iff.1 hc)
  cases k with
  | keep => rfl
  | upperCamel => exact camel_eq_self (fun c hc => hupper (h.1 c hc)) h.2
  | lowerCamel => exact camel_eq_self (fun c hc => hlower (h.1 c hc)) h.2
  | snake => exact snakeForm_eq_self h
  | screamingSnake => exact absurd rfl hk
  | allLower => exact (List.map_congr_left fun c hc => hlower (h c hc)).trans (List.map_id' s)
  | allUpper => exact (List.map_congr_left fun c hc => hupper (h c hc)).trans (List.map_id' s)

/-- A name in another case has the same letters and digits in the same order, whatever their case, and what else is no underscore.
An identifier stays one, the result has the form of the case, and exactly in the cases other than capitals between underscores it
does not change when it is converted again. -/
theorem apply_keeps_words (k : Case) :
    (∀ s : String, skeleton (k.apply s).toList = skeleton s.toList) ∧
    (∀ s : String, isIdentifier s = true → isIdentifier (k.apply s) = true) ∧ (∀ s : String, k.Written (k.apply s).toList) ∧
    ((∀ s : String, k.apply (k.apply s) = k.apply s) ↔ k ≠ .screamingSnake) := by
  refine ⟨fun s => ?_, fun s => isIdentifier_apply k, fun s => ?_, ?_, fun hk s => ?_⟩
  · rw [apply, String.toList_ofList, skeleton_convert]
  · rw [apply, String.toList_ofList]
    exact written_convert k s.toList
  · rintro h rfl
    exact absurd (h "Vec3d") (by decide)
  · simp only [apply, String.toList_ofList, convert_eq_self hk (written_convert k s.toList)]

/-- Acronyms, digits, and underscores at both ends and next to each other. -/
theorem apply_keeps_words_acronym :
    isIdentifier "_MDEntry__px3D_" = true ∧ lowerCamel ≠ .screamingSnake ∧ lowerCamel.apply "_MDEntry__px3D_" = "_MDEntryPx3D_" ∧
    skeleton "_MDEntryPx3D_".toList = skeleton "_MDEntry__px3D_".toList ∧ isIdentifier "_MDEntryPx3D_" = true ∧
    lowerCamel.apply "_MDEntryPx3D_" = "_MDEntryPx3D_" := by
  have hidentifier : isIdentifier "_MDEntry__px3D_" = true := by decide
  have hcase : lowerCamel ≠ .screamingSnake := by decide
  have happly : lowerCamel.apply "_MDEntry__px3D_" = "_MDEntryPx3D_" := by decide
  obtain ⟨hskeleton, hstays, _, hagain⟩ := apply_keeps_words lowerCamel
  refine ⟨hidentifier, hcase, happly, ?_, ?_, ?_⟩
  · exact happly ▸ hskeleton "_MDEntry__px3D_"
  · exact happly ▸ hstays "_MDEntry__px3D_" hidentifier
  · exact happly ▸ hagain.2 hcase "_MDEntry__px3D_"

end Case

end FlatSchema

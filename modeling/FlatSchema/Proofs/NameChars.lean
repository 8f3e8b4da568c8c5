import FlatSchema.Naming.Namer
import FlatSchema.Proofs.Names

/-!
# The characters of generated names

A name in another case has the characters of the name, letters and underscores. So a kind of character that letters and underscores
belong to is kept by all naming rules (`CharKind.mem_format`), if it also has what a language puts around its reserved words.
-/

namespace FlatSchema

/-- In upper case a character stays or is a capital letter. -/
theorem toUpper_eq_or_isUpper (c : Char) : c.toUpper = c ∨ c.toUpper.isUpper = true := by
  unfold Char.toUpper
  split
  next h =>
    refine .inr (decide_eq_true ?_)
    simp only [ge_iff_le, UInt32.le_iff_toNat_le, UInt32.toNat_add, UInt32.toNat_sub] at h ⊢
    simp at h ⊢
    omega
  next => exact .inl rfl

/-- In lower case a character stays or is a small letter. -/
theorem toLower_eq_or_isLower (c : Char) : c.toLower = c ∨ c.toLower.isLower = true := by
  unfold Char.toLower
  split
  next h =>
    refine .inr (Bool.and_eq_true_iff.2 ⟨decide_eq_true ?_, decide_eq_true ?_⟩) <;>
    · simp only [ge_iff_le, UInt32.le_iff_toNat_le, UInt32.toNat_add] at h ⊢
      simp at h ⊢
      omega
  next => exact .inl rfl

/-- A kind of character that letters and underscores belong to. -/
structure CharKind (P : Char → Prop) : Prop where
  letter : ∀ c : Char, c.isAlpha = true → P c
  underscore : P '_'

namespace CharKind

variable {P : Char → Prop} {s : List Char} {name : String}

/-- A character that is neither a letter nor an underscore may be left out. -/
theorem ne {x : Char} (hletter : x.isAlpha = false) (hunderscore : x ≠ '_') : CharKind (· ≠ x) where
  letter c hc hx := by
    rw [hx, hletter] at hc
    cases hc
  underscore := hunderscore.symm

/-- Two kinds of characters together are one. -/
theorem and {P Q : Char → Prop} (hP : CharKind P) (hQ : CharKind Q) : CharKind fun c => P c ∧ Q c where
  letter c hc := ⟨hP.letter c hc, hQ.letter c hc⟩
  underscore := ⟨hP.underscore, hQ.underscore⟩

/-- A kind of characters keeps to itself in upper case. -/
theorem toUpper (hP : CharKind P) {c : Char} (h : P c) : P c.toUpper := by
  rcases toUpper_eq_or_isUpper c with hc | hc
  · rwa [hc]
  · exact hP.letter _ (Bool.or_eq_true_iff.2 (.inl hc))

/-- A kind of characters keeps to itself in lower case. -/
theorem toLower (hP : CharKind P) {c : Char} (h : P c) : P c.toLower := by
  rcases toLower_eq_or_isLower c with hc | hc
  · rwa [hc]
  · exact hP.letter _ (Bool.or_eq_true_iff.2 (.inr hc))

/-- The rest of a camel case form is made of characters of the kind. -/
theorem mem_camelRest (hP : CharKind P) {capital : Bool} (h : ∀ c ∈ s, P c) : ∀ c ∈ Case.camelRest capital s, P c := by
  fun_induction Case.camelRest capital s with
  | case1 => exact h
  | case2 capital c rest _ ih => exact ih fun x hx => h x (List.mem_cons_of_mem c hx)
  | case3 capital c rest _ ih =>
    have hc : P c := h c List.mem_cons_self
    refine List.forall_mem_cons.2 ⟨?_, ih fun x hx => h x (List.mem_cons_of_mem c hx)⟩
    split
    · exact hP.toUpper hc
    · exact hc

/-- A camel case form is made of characters of the kind. -/
theorem mem_camel (hP : CharKind P) {first : Char → Char} (hfirst : ∀ c, P c → P (first c)) (h : ∀ c ∈ s, P c) :
    ∀ c ∈ Case.camel first s, P c := by
  cases s with
  | nil => exact h
  | cons c rest =>
    obtain ⟨hc, hrest⟩ := List.forall_mem_cons.1 h
    exact List.forall_mem_cons.2 ⟨hfirst c hc, hP.mem_camelRest hrest⟩

/-- The rest of a snake case form is made of characters of the kind. -/
theorem mem_snakeRest (hP : CharKind P) {previous : Char} (h : ∀ c ∈ s, P c) : ∀ c ∈ Case.snakeRest previous s, P c := by
  fun_induction Case.snakeRest previous s with
  | case1 => exact h
  | case2 previous c rest _ ih =>
    obtain ⟨hc, hrest⟩ := List.forall_mem_cons.1 h
    exact List.forall_mem_cons.2 ⟨hP.underscore, List.forall_mem_cons.2 ⟨hP.toLower hc, ih hrest⟩⟩
  | case3 previous c rest _ ih =>
    obtain ⟨hc, hrest⟩ := List.forall_mem_cons.1 h
    exact List.forall_mem_cons.2 ⟨hP.toLower hc, ih hrest⟩

/-- A snake case form is made of characters of the kind. -/
theorem mem_snakeForm (hP : CharKind P) (h : ∀ c ∈ s, P c) : ∀ c ∈ Case.snakeForm s, P c := by
  cases s with
  | nil => exact h
  | cons c rest =>
    obtain ⟨hc, hrest⟩ := List.forall_mem_cons.1 h
    exact List.forall_mem_cons.2 ⟨hP.toLower hc, hP.mem_snakeRest hrest⟩

/-- Every form is made of characters of the kind. -/
theorem mem_convert (hP : CharKind P) (k : Case) (h : ∀ c ∈ s, P c) : ∀ c ∈ k.convert s, P c := by
  cases k with
  | keep => exact h
  | upperCamel => exact hP.mem_camel (fun _ => hP.toUpper) h
  | lowerCamel => exact hP.mem_camel (fun _ => hP.toLower) h
  | snake => exact hP.mem_snakeForm h
  | screamingSnake => exact List.forall_mem_map.2 fun c hc => hP.toUpper (hP.mem_snakeForm h c hc)
  | allLower => exact List.forall_mem_map.2 fun c hc => hP.toLower (h c hc)
  | allUpper => exact List.forall_mem_map.2 fun c hc => hP.toUpper (h c hc)

theorem mem_apply (hP : CharKind P) (k : Case) (h : ∀ c ∈ name.toList, P c) : ∀ c ∈ (k.apply name).toList, P c := by
  rw [Case.apply, String.toList_ofList]
  exact hP.mem_convert k h

/-- Naming rules keep to a kind of character. -/
theorem mem_format (hP : CharKind P) {n : Namer} (hfront : ∀ c ∈ n.keywordPrefix.toList, P c)
    (hback : ∀ c ∈ n.keywordSuffix.toList, P c) (k : Case) (h : ∀ c ∈ name.toList, P c) :
    ∀ c ∈ (n.format k name).toList, P c := by
  have hescape : ∀ {x : String}, (∀ c ∈ x.toList, P c) → ∀ c ∈ (n.escape x).toList, P c := by
    intro x hx
    unfold Namer.escape
    split
    · simp only [String.toList_append, List.forall_mem_append]
      exact ⟨⟨hfront, hx⟩, hback⟩
    · exact hx
  unfold Namer.format
  split
  · exact hP.mem_apply k (hescape h)
  · exact hescape (hP.mem_apply k h)

end CharKind

end FlatSchema

import FlatSchema.Proofs.JsonText

/-!
# The texts of JSON values

A value whose numbers are integers in range and which is not nested too deep is read back from its texts, the one over several lines
(`read?_pretty`) and the one without any space (`read?_compact`). The shape of such a value also says what the members of all
objects in it are like.
-/

namespace FlatSchema.Json

/-! ## Shapes -/

/-- A value whose numbers are integers in range and whose arrays and objects nest at most so deep. The members of all objects in it
have a property. -/
inductive Shaped (P : String → Json → Prop) : Nat → Json → Prop
  | null {n : Nat} : Shaped P n .null
  | bool {n : Nat} (b : Bool) : Shaped P n (.bool b)
  | int {n : Nat} {v : Int} (hv : Number.inIntegerRange v = true) : Shaped P n (.number (.int v))
  | string {n : Nat} (t : String) : Shaped P n (.string t)
  | array {n : Nat} {vs : List Json} (h : ∀ v ∈ vs, Shaped P n v) : Shaped P (n + 1) (.array vs)
  | object {n : Nat} {ms : List (String × Json)} (hm : ∀ m ∈ ms, P m.1 m.2) (h : ∀ m ∈ ms, Shaped P n m.2) :
    Shaped P (n + 1) (.object ms)

/-- A value holds a member somewhere: in one of its own members, or further inside. -/
inductive HasMember (key : String) (value : Json) : Json → Prop
  | here {ms : List (String × Json)} (h : (key, value) ∈ ms) : HasMember key value (.object ms)
  | member {ms : List (String × Json)} {m : String × Json} (hm : m ∈ ms) (h : HasMember key value m.2) :
    HasMember key value (.object ms)
  | item {vs : List Json} {v : Json} (hv : v ∈ vs) (h : HasMember key value v) : HasMember key value (.array vs)

namespace Shaped

variable {P : String → Json → Prop} {n : Nat} {v : Json}

/-- What holds of all members holds of one. -/
theorem of_hasMember {key : String} {value : Json} (hv : Shaped P n v) (h : HasMember key value v) : P key value := by
  induction h generalizing n with
  | here h =>
    cases hv with
    | object hm _ => exact hm _ h
  | member hm _ ih =>
    cases hv with
    | object _ hv => exact ih (hv _ hm)
  | item hw _ ih =>
    cases hv with
    | array hv => exact ih (hv _ hw)

/-- A shape allows for deeper nesting. -/
theorem mono (h : Shaped P n v) : ∀ {m : Nat}, n ≤ m → Shaped P m v := by
  induction h with
  | null => exact fun _ => .null
  | bool b => exact fun _ => .bool b
  | int hv => exact fun _ => .int hv
  | string t => exact fun _ => .string t
  | array _ ih =>
    intro m hm
    obtain ⟨k, rfl⟩ : ∃ k, m = k + 1 := ⟨m - 1, by omega⟩
    exact .array fun v hv => ih v hv (by omega)
  | object hm _ ih =>
    intro m hle
    obtain ⟨k, rfl⟩ : ∃ k, m = k + 1 := ⟨m - 1, by omega⟩
    exact .object hm fun v hv => ih v hv (by omega)

end Shaped

/-- What holds of the members and of the one that is put holds of all. -/
theorem forall_mem_put {Q : String × Json → Prop} {ms : List (String × Json)} {key : String} {value : Json} (h : ∀ m ∈ ms, Q m)
    (hput : Q (key, value)) : ∀ m ∈ put ms key value, Q m := by
  intro m hm
  unfold put at hm
  split at hm
  · obtain ⟨m', hm', rfl⟩ := List.mem_map.1 hm
    split
    · exact hput
    · exact h m' hm'
  · rcases List.mem_append.1 hm with hm | hm
    · exact h m hm
    · exact List.mem_singleton.1 hm ▸ hput

/-! ## Values over several lines -/

/-- A line break and the indentation behind it are blanks. -/
theorem newline_blank (depth : Nat) : Blank (newline depth).toList := by
  intro c hc
  rw [newline, String.toList_ofList] at hc
  rcases List.mem_cons.1 hc with rfl | hc
  · rfl
  · rw [(List.mem_replicate.1 hc).2]
    rfl

section Joined

variable {n : Nat} {gap stop : List Char} (hgap : Blank gap) (hstop : Blank stop)
include hgap hstop

/-- Items that are spelled, with commas and blanks between them. -/
theorem Spells.joinItems {f : Json → List Char} : ∀ {v : Json} {vs : List Json}, (∀ w ∈ v :: vs, Spells n (.value w) (f w)) →
    Spells n (.items (v :: vs)) (gap ++ ((',' :: gap).intercalate ((v :: vs).map f) ++ stop)) := by
  intro v vs h
  induction vs generalizing v with
  | nil =>
    have hv := h v List.mem_cons_self
    simpa using Spells.lastItem hgap hv hstop
  | cons w vs ih =>
    have hv := h v List.mem_cons_self
    have hrest := ih fun x hx => h x (List.mem_cons_of_mem v hx)
    simpa using Spells.item hgap hv blank_nil hrest

/-- Members that are spelled, with commas and blanks between them. -/
theorem Spells.joinMembers {colon : List Char} (hcolon : Blank colon) {f : Json → List Char} :
    ∀ {m : String × Json} {ms : List (String × Json)}, (∀ w ∈ m :: ms, Spells n (.value w.2) (f w.2)) →
    Spells n (.members (m :: ms))
      (gap ++ ((',' :: gap).intercalate ((m :: ms).map fun w => (quote w.1).toList ++ ':' :: (colon ++ f w.2)) ++ stop)) := by
  intro m ms h
  induction ms generalizing m with
  | nil =>
    have hm := h m List.mem_cons_self
    simpa using Spells.lastMember (k := m.1) hgap blank_nil hcolon hm hstop
  | cons w ms ih =>
    have hm := h m List.mem_cons_self
    have hrest := ih fun x hx => h x (List.mem_cons_of_mem m hx)
    simpa using Spells.member (k := m.1) hgap blank_nil hcolon hm blank_nil hrest

end Joined

/-- Items are printed one by one. -/
theorem prettyItems_eq (depth : Nat) (vs : List Json) : prettyItems depth vs = vs.map (prettyAt depth) := by
  induction vs with
  | nil => rw [prettyItems, List.map_nil]
  | cons v vs ih => rw [prettyItems, ih, List.map_cons]

/-- Members are printed one by one. -/
theorem prettyMembers_eq (depth : Nat) (ms : List (String × Json)) :
    prettyMembers depth ms = ms.map fun m => quote m.1 ++ ": " ++ prettyAt depth m.2 := by
  induction ms with
  | nil => rw [prettyMembers, List.map_nil]
  | cons m ms ih => rw [prettyMembers, ih, List.map_cons]

theorem bracketed_nil_toList (o c : String) (depth : Nat) : (bracketed o c depth []).toList = o.toList ++ c.toList :=
  String.toList_append

/-- Items in brackets stand on lines of their own. -/
theorem bracketed_toList {o c : String} {depth : Nat} {items : List String} (hne : items ≠ []) :
    (bracketed o c depth items).toList = o.toList ++ ((newline (depth + 1)).toList ++
      ((',' :: (newline (depth + 1)).toList).intercalate (items.map String.toList) ++ (newline depth).toList) ++ c.toList) := by
  have hempty : items.isEmpty = false := by simpa using hne
  simp [bracketed, hempty, String.toList_append, String.toList_intercalate]

/-- A value is spelled by its printed text, at any indentation. -/
theorem spells_prettyAt {P : String → Json → Prop} {n : Nat} {v : Json} (h : Shaped P n v) :
    ∀ depth, Spells n (.value v) (prettyAt depth v).toList := by
  induction h with
  | null => exact fun _ => .null
  | bool b => exact fun _ => .bool b
  | int hv => exact fun _ => .int hv
  | string t => exact fun _ => .string t
  | @array n vs _ ih =>
    intro depth
    cases vs with
    | nil =>
      rw [prettyAt, prettyItems, bracketed_nil_toList]
      exact .array (.noItem blank_nil)
    | cons v vs =>
      have hjoin := Spells.joinItems (newline_blank (depth + 1)) (newline_blank depth) fun w hw => ih w hw (depth + 1)
      rw [prettyAt, prettyItems_eq, bracketed_toList (by simp), List.map_map]
      exact .array hjoin
  | @object n ms _ _ ih =>
    intro depth
    cases ms with
    | nil =>
      rw [prettyAt, prettyMembers, bracketed_nil_toList]
      exact .object (.noMember blank_nil)
    | cons m ms =>
      have hspace : Blank [' '] := by simp [Blank, isSpace]
      have hjoin := Spells.joinMembers (f := fun v => (prettyAt (depth + 1) v).toList) (newline_blank (depth + 1))
        (newline_blank depth) hspace fun w hw => ih w hw (depth + 1)
      rw [prettyAt, prettyMembers_eq, bracketed_toList (by simp), List.map_map]
      simpa [Function.comp_def] using Spells.object hjoin

/-- A value is read back from its text with a line break behind it. -/
theorem read?_pretty {P : String → Json → Prop} {v : Json} (h : Shaped P maxDepth v) : read? (v.pretty ++ "\n") = some v := by
  have hbreak : Blank ['\n'] := by simp [Blank, isSpace]
  exact read?_of_spells (spells_prettyAt h 0) hbreak String.toList_append

/-! ## Values without any space -/

/-- Items are printed one by one. -/
theorem compactItems_eq (vs : List Json) : compactItems vs = vs.map compact := by
  induction vs with
  | nil => rw [compactItems, List.map_nil]
  | cons v vs ih => rw [compactItems, ih, List.map_cons]

/-- Members are printed one by one. -/
theorem compactMembers_eq (ms : List (String × Json)) :
    compactMembers ms = ms.map fun m => quote m.1 ++ ":" ++ compact m.2 := by
  induction ms with
  | nil => rw [compactMembers, List.map_nil]
  | cons m ms ih => rw [compactMembers, ih, List.map_cons]

/-- A value is spelled by its compact text. -/
theorem spells_compact {P : String → Json → Prop} {n : Nat} {v : Json} (h : Shaped P n v) :
    Spells n (.value v) v.compact.toList := by
  induction h with
  | null => exact .null
  | bool b => exact .bool b
  | int hv => exact .int hv
  | string t => exact .string t
  | @array n vs _ ih =>
    cases vs with
    | nil => exact .array (.noItem blank_nil)
    | cons v vs =>
      have hjoin := Spells.joinItems blank_nil blank_nil ih
      rw [compact, compactItems_eq]
      simpa [String.toList_append, String.toList_intercalate, Function.comp_def] using Spells.array hjoin
  | @object n ms _ _ ih =>
    cases ms with
    | nil => exact .object (.noMember blank_nil)
    | cons m ms =>
      have hjoin := Spells.joinMembers (f := fun v => v.compact.toList) blank_nil blank_nil blank_nil ih
      have htexts : (compactMembers (m :: ms)).map String.toList =
          (m :: ms).map fun w => (quote w.1).toList ++ ':' :: ([] ++ w.2.compact.toList) := by
        rw [compactMembers_eq, List.map_map]
        exact List.map_congr_left fun w _ => by simp [String.toList_append]
      rw [List.nil_append, List.append_nil, ← htexts] at hjoin
      rw [compact, String.toList_append, String.toList_append, String.toList_intercalate]
      exact .object hjoin

/-- A value is read back from its text without any space. -/
theorem read?_compact {P : String → Json → Prop} {v : Json} (h : Shaped P maxDepth v) : read? v.compact = some v :=
  read?_of_spells (spells_compact h) blank_nil (List.append_nil _).symm

end FlatSchema.Json

import FlatSchema.Json.Record
import FlatSchema.Proofs.JsonShape
import Mathlib.Data.List.Nodup

/-!
# Values and records that are read

What is read from a text nests at most so deep as the reader allows (`read?_nested`). Merging its objects keeps the depth and leaves
each key once (`Nested.tidy_merged`), and what is merged stays as it is (`Tidy.merged_eq`). A record that is written with all its
members is read as these members (`record?_zip`).
-/

namespace FlatSchema.Json

/-! ## Nesting -/

/-- Arrays and objects nest at most so deep. -/
inductive Nested : Nat → Json → Prop
  | null {n : Nat} : Nested n .null
  | bool {n : Nat} (b : Bool) : Nested n (.bool b)
  | number {n : Nat} (x : Number) : Nested n (.number x)
  | string {n : Nat} (t : String) : Nested n (.string t)
  | array {n : Nat} {vs : List Json} (h : ∀ v ∈ vs, Nested n v) : Nested (n + 1) (.array vs)
  | object {n : Nat} {ms : List (String × Json)} (h : ∀ m ∈ ms, Nested n m.2) : Nested (n + 1) (.object ms)

/-- Whatever is read in a number of steps nests at most so deep as it may. -/
structure ReadsNested (fuel : Nat) : Prop where
  value : ∀ {n : Nat} {s r : List Char} {v : Json}, readValue? fuel n s = some (v, r) → Nested n v
  items : ∀ {n : Nat} {s r : List Char} {vs : List Json}, readItems? fuel n s = some (vs, r) → ∀ v ∈ vs, Nested n v
  members : ∀ {n : Nat} {s r : List Char} {ms : List (String × Json)}, readMembers? fuel n s = some (ms, r) →
    ∀ m ∈ ms, Nested n m.2

namespace ReadsNested

variable {fuel n : Nat} {s r : List Char}

/-- One step of reading a value keeps the depth. -/
theorem value_succ (h : ReadsNested fuel) {v : Json} (hv : readValue? (fuel + 1) n s = some (v, r)) : Nested n v := by
  rw [readValue?] at hv
  split at hv
  · cases hv
    exact .null
  · cases hv
    exact .bool true
  · cases hv
    exact .bool false
  · obtain ⟨p, _, hp⟩ := Option.map_eq_some_iff.1 hv
    cases hp
    exact .string _
  · cases n with
    | zero => cases hv
    | succ n =>
      -- the depth is used up by the bracket
      dsimp only at hv
      split at hv
      · cases hv
        exact .array fun v hv => absurd hv List.not_mem_nil
      · obtain ⟨p, hitems, hp⟩ := Option.map_eq_some_iff.1 hv
        cases hp
        exact .array (h.items hitems)
  · cases n with
    | zero => cases hv
    | succ n =>
      dsimp only at hv
      split at hv
      · cases hv
        exact .object fun m hm => absurd hm List.not_mem_nil
      · obtain ⟨p, hmembers, hp⟩ := Option.map_eq_some_iff.1 hv
        cases hp
        exact .object (h.members hmembers)
  · obtain ⟨p, _, hp⟩ := Option.map_eq_some_iff.1 hv
    cases hp
    exact .number _

/-- One step of reading items keeps the depth. -/
theorem items_succ (h : ReadsNested fuel) {vs : List Json} (hvs : readItems? (fuel + 1) n s = some (vs, r)) :
    ∀ v ∈ vs, Nested n v := by
  rw [readItems?] at hvs
  obtain ⟨⟨v, r'⟩, hv, hvs⟩ := Option.bind_eq_some_iff.1 hvs
  have hfirst := h.value hv
  dsimp only at hvs
  split at hvs
  · obtain ⟨⟨later, _⟩, hlater, hvs⟩ := Option.bind_eq_some_iff.1 hvs
    cases hvs
    exact List.forall_mem_cons.2 ⟨hfirst, h.items hlater⟩
  · cases hvs
    exact List.forall_mem_singleton.2 hfirst
  · cases hvs

/-- One step of reading members keeps the depth. -/
theorem members_succ (h : ReadsNested fuel) {ms : List (String × Json)} (hms : readMembers? (fuel + 1) n s = some (ms, r)) :
    ∀ m ∈ ms, Nested n m.2 := by
  rw [readMembers?] at hms
  split at hms
  · obtain ⟨⟨k, r'⟩, _, hms⟩ := Option.bind_eq_some_iff.1 hms
    dsimp only at hms
    split at hms
    · obtain ⟨⟨v, r''⟩, hv, hms⟩ := Option.bind_eq_some_iff.1 hms
      have hfirst := h.value hv
      dsimp only at hms
      split at hms
      · obtain ⟨⟨later, _⟩, hlater, hms⟩ := Option.bind_eq_some_iff.1 hms
        cases hms
        exact List.forall_mem_cons.2 ⟨hfirst, h.members hlater⟩
      · cases hms
        exact List.forall_mem_singleton.2 hfirst
      · cases hms
    · cases hms
  · cases hms

/-- However many steps are taken, nothing deeper is read. -/
theorem all (fuel : Nat) : ReadsNested fuel := by
  induction fuel with
  | zero =>
    refine ⟨fun h => ?_, fun h => ?_, fun h => ?_⟩
    · cases h
    · cases h
    · cases h
  | succ fuel ih => exact ⟨ih.value_succ, ih.items_succ, ih.members_succ⟩

end ReadsNested

/-- A text is read as a value of bounded depth. -/
theorem read?_nested {text : String} {v : Json} (h : read? text = some v) : Nested maxDepth v := by
  unfold read? at h
  dsimp only at h
  split at h
  next v' r hread =>
    split at h
    · cases h
      exact (ReadsNested.all _).value hread
    · cases h
  next => cases h

/-! ## Merged objects -/

/-- Arrays and objects nest at most so deep, and no object has a key twice. -/
inductive Tidy : Nat → Json → Prop
  | null {n : Nat} : Tidy n .null
  | bool {n : Nat} (b : Bool) : Tidy n (.bool b)
  | number {n : Nat} (x : Number) : Tidy n (.number x)
  | string {n : Nat} (t : String) : Tidy n (.string t)
  | array {n : Nat} {vs : List Json} (h : ∀ v ∈ vs, Tidy n v) : Tidy (n + 1) (.array vs)
  | object {n : Nat} {ms : List (String × Json)} (hkeys : (ms.map (·.1)).Nodup) (h : ∀ m ∈ ms, Tidy n m.2) :
    Tidy (n + 1) (.object ms)

/-- The items of an array are merged one by one. -/
theorem mergedItems_eq (vs : List Json) : mergedItems vs = vs.map merged := by
  induction vs with
  | nil => rw [mergedItems, List.map_nil]
  | cons v vs ih => rw [mergedItems, ih, List.map_cons]

/-- The members of an object are put one after the other, a later one in the place of an earlier one of its name. -/
theorem mergedMembers_eq (ms : List (String × Json)) : ∀ done : List (String × Json),
    mergedMembers done ms = ms.foldl (fun done m => put done m.1 (merged m.2)) done := by
  induction ms with
  | nil =>
    intro done
    rw [mergedMembers, List.foldl_nil]
  | cons m ms ih =>
    intro done
    rw [mergedMembers, ih, List.foldl_cons]

/-- A key that is new goes behind the others. -/
theorem put_of_not_mem {ms : List (String × Json)} {key : String} (h : key ∉ ms.map (·.1)) (value : Json) :
    put ms key value = ms ++ [(key, value)] := by
  have hno : ms.any (fun m => m.1 == key) = false := by
    refine List.any_eq_false.2 fun m hm heq => h ?_
    exact eq_of_beq heq ▸ List.mem_map_of_mem hm
  rw [put, hno]
  rfl

/-- Putting a member keeps the keys different. -/
theorem put_keys_nodup {ms : List (String × Json)} (h : (ms.map (·.1)).Nodup) (key : String) (value : Json) :
    ((put ms key value).map (·.1)).Nodup := by
  by_cases hkey : key ∈ ms.map (·.1)
  · have hyes : ms.any (fun m => m.1 == key) = true := by
      obtain ⟨m, hm, rfl⟩ := List.mem_map.1 hkey
      exact List.any_eq_true.2 ⟨m, hm, beq_self_eq_true m.1⟩
    have hsame : (put ms key value).map (·.1) = ms.map (·.1) := by
      rw [put, if_pos hyes, List.map_map]
      refine List.map_congr_left fun m _ => ?_
      by_cases hm : m.1 = key <;> simp [hm]
    rwa [hsame]
  · rw [put_of_not_mem hkey, List.map_append, List.nodup_append]
    refine ⟨h, List.nodup_singleton _, ?_⟩
    intro a ha b hb hab
    rw [List.map_singleton, List.mem_singleton] at hb
    rw [hab, hb] at ha
    exact hkey ha

/-- One member after the other is put behind those that are there. -/
theorem foldl_put_tidy {n : Nat} {ms : List (String × Json)} (h : ∀ m ∈ ms, Tidy n (merged m.2)) :
    ∀ {done : List (String × Json)}, (done.map (·.1)).Nodup → (∀ m ∈ done, Tidy n m.2) →
      Tidy (n + 1) (.object (ms.foldl (fun done m => put done m.1 (merged m.2)) done)) := by
  induction ms with
  | nil => exact fun hkeys hdone => .object hkeys hdone
  | cons m ms ih =>
    intro done hkeys hdone
    have hm := h m List.mem_cons_self
    refine ih (fun w hw => h w (List.mem_cons_of_mem m hw)) (put_keys_nodup hkeys m.1 _) ?_
    exact forall_mem_put (Q := fun w => Tidy n w.2) hdone hm

/-- A merged value is tidy. -/
theorem Nested.tidy_merged {n : Nat} {v : Json} (h : Nested n v) : Tidy n (merged v) := by
  induction h with
  | null =>
    rw [merged]
    exact .null
  | bool b =>
    rw [merged]
    exact .bool b
  | number x =>
    rw [merged]
    exact .number x
  | string t =>
    rw [merged]
    exact .string t
  | @array n vs _ ih =>
    rw [merged, mergedItems_eq]
    exact .array (List.forall_mem_map.2 ih)
  | @object n ms _ ih =>
    rw [merged, mergedMembers_eq]
    exact foldl_put_tidy ih List.nodup_nil fun m hm => absurd hm List.not_mem_nil

/-- Members with different keys are put one behind the other. -/
theorem foldl_put_of_nodup {ms : List (String × Json)} : ∀ done : List (String × Json), ((done ++ ms).map (·.1)).Nodup →
    (∀ m ∈ ms, merged m.2 = m.2) → ms.foldl (fun done m => put done m.1 (merged m.2)) done = done ++ ms := by
  induction ms with
  | nil => exact fun _ _ _ => (List.append_nil _).symm
  | cons m ms ih =>
    intro done hkeys hms
    have hnew : m.1 ∉ done.map (·.1) := by
      rw [List.map_append, List.nodup_append] at hkeys
      exact fun hmem => hkeys.2.2 m.1 hmem m.1 List.mem_cons_self rfl
    have hstep : put done m.1 (merged m.2) = done ++ [m] := by
      rw [hms m List.mem_cons_self, put_of_not_mem hnew]
    rw [List.append_cons] at hkeys
    rw [List.foldl_cons, hstep, ih _ hkeys fun w hw => hms w (List.mem_cons_of_mem m hw), ← List.append_cons]

/-- There is nothing to merge in a tidy value. -/
theorem Tidy.merged_eq {n : Nat} {v : Json} (h : Tidy n v) : merged v = v := by
  induction h with
  | null => rw [merged]
  | bool b => rw [merged]
  | number x => rw [merged]
  | string t => rw [merged]
  | @array n vs _ ih =>
    rw [merged, mergedItems_eq, List.map_congr_left ih, List.map_id']
  | @object n ms hkeys _ ih =>
    rw [merged, mergedMembers_eq, foldl_put_of_nodup [] hkeys ih, List.nil_append]

/-- Merging makes nothing null. -/
theorem merged_ne_null {v : Json} (h : v ≠ .null) : merged v ≠ .null := by
  cases v with
  | null => exact absurd rfl h
  | _ =>
    rw [merged]
    exact Json.noConfusion

/-! ## Integers -/

mutual

/-- Whether all numbers in a value are integers in range. -/
def integral : Json → Bool
  | .number (.int v) => Number.inIntegerRange v
  | .number (.double _) => false
  | .array items => integralItems items
  | .object members => integralMembers members
  | _ => true

/-- Whether all numbers in the items of an array are integers in range. -/
def integralItems : List Json → Bool
  | [] => true
  | v :: items => integral v && integralItems items

/-- Whether all numbers in the members of an object are integers in range. -/
def integralMembers : List (String × Json) → Bool
  | [] => true
  | (_, v) :: members => integral v && integralMembers members

end

/-- An array is integral if its items are. -/
theorem integralItems_eq (vs : List Json) : integralItems vs = vs.all integral := by
  induction vs with
  | nil => rw [integralItems, List.all_nil]
  | cons v vs ih => rw [integralItems, ih, List.all_cons]

/-- An object is integral if its members are. -/
theorem integralMembers_eq (ms : List (String × Json)) : integralMembers ms = ms.all fun m => integral m.2 := by
  induction ms with
  | nil => rw [integralMembers, List.all_nil]
  | cons m ms ih => rw [integralMembers, ih, List.all_cons]

/-- A tidy value with integral numbers has a shape. -/
theorem Tidy.shaped {n : Nat} {v : Json} (h : Tidy n v) : integral v = true → Shaped (fun _ _ => True) n v := by
  induction h with
  | null => exact fun _ => .null
  | bool b => exact fun _ => .bool b
  | number x =>
    intro hx
    cases x with
    | int v => exact .int (by simpa [integral] using hx)
    | double d =>
      rw [integral] at hx
      cases hx
  | string t => exact fun _ => .string t
  | array _ ih =>
    intro hvs
    rw [integral, integralItems_eq, List.all_eq_true] at hvs
    exact .array fun v hv => ih v hv (hvs v hv)
  | object _ _ ih =>
    intro hms
    rw [integral, integralMembers_eq, List.all_eq_true] at hms
    exact .object (fun _ _ => trivial) fun m hm => ih m hm (hms m hm)

/-! ## Records -/

/-- Values are found under their names. -/
theorem map_lookup_zip : ∀ {names : List String} {values : List Json}, names.length = values.length → repeats names = false →
    names.map (fun n => (names.zip values).lookup n) = values.map some
  | [], [], _, _ => rfl
  | name :: names, value :: values, hlength, hnames => by
    rw [repeats, Bool.or_eq_false_iff] at hnames
    have hrest := map_lookup_zip (Nat.succ.inj hlength) hnames.2
    have hlater : ∀ n ∈ names, ((name :: names).zip (value :: values)).lookup n = (names.zip values).lookup n := by
      intro n hn
      have hne : n ≠ name := by
        rintro rfl
        rw [List.contains_iff_mem.2 hn] at hnames
        exact Bool.noConfusion hnames.1
      rw [List.zip_cons_cons, List.lookup_cons, beq_false_of_ne hne]
    rw [List.map_cons, List.map_congr_left hlater, hrest, List.zip_cons_cons, List.lookup_cons_self, List.map_cons]

/-- A record that is written as an object with all its members is read as these members. -/
theorem record?_zip {names : List String} {values : List Json} (hlength : names.length = values.length)
    (hnames : repeats names = false) : record? names (.object (names.zip values)) = some (values.map some) := by
  have hkeys : (names.zip values).map (·.1) = names := List.map_fst_zip (Nat.le_of_eq hlength)
  have hknown : names.all names.contains = true := by simp
  rw [record?, hkeys, hknown, hnames, map_lookup_zip hlength hnames]
  rfl

/-- The members of a record nest less deep. -/
theorem record?_nested {n : Nat} {names : List String} {j : Json} {members : List (Option Json)} (hj : Nested (n + 1) j)
    (h : record? names j = some members) : ∀ v, some v ∈ members → Nested n v := by
  intro v hv
  cases hj with
  | array hitems =>
    rw [record?] at h
    split at h
    · cases h
      rcases List.mem_append.1 hv with hv | hv
      · obtain ⟨w, hw, heq⟩ := List.mem_map.1 hv
        cases heq
        exact hitems _ hw
      · cases (List.mem_replicate.1 hv).2
    · cases h
  | object hmembers =>
    rw [record?] at h
    split at h
    · cases h
      obtain ⟨name, _, hlookup⟩ := List.mem_map.1 hv
      obtain ⟨before, after, hms, _⟩ := List.lookup_eq_some_iff.1 hlookup
      exact hmembers (name, v) (hms ▸ List.mem_append_right before List.mem_cons_self)
    · cases h
  | null | bool | number | string => cases h

/-- What is written as an array is read item by item. -/
theorem list?_map {α : Type} {read : Json → Option α} {write : α → Json} {xs : List α}
    (h : ∀ x ∈ xs, read (write x) = some x) : list? read (.array (xs.map write)) = some xs := by
  rw [list?, List.mapM_map]
  induction xs with
  | nil => rfl
  | cons x xs ih =>
    rw [List.mapM_cons, Function.comp_apply, h x List.mem_cons_self, ih fun y hy => h y (List.mem_cons_of_mem x hy)]
    rfl

/-- What is read from items is read from one of them. -/
theorem mem_of_mapM {α : Type} {read : Json → Option α} : ∀ {items : List Json} {xs : List α}, items.mapM read = some xs →
    ∀ x ∈ xs, ∃ v ∈ items, read v = some x
  | [], xs, h, x, hx => by
    cases h
    cases hx
  | v :: items, xs, h, x, hx => by
    rw [List.mapM_cons] at h
    obtain ⟨y, hy, h⟩ := Option.bind_eq_some_iff.1 h
    obtain ⟨ys, hys, h⟩ := Option.bind_eq_some_iff.1 h
    cases h
    rcases List.mem_cons.1 hx with rfl | hx
    · exact ⟨v, List.mem_cons_self, hy⟩
    · obtain ⟨w, hw, hread⟩ := mem_of_mapM hys x hx
      exact ⟨w, List.mem_cons_of_mem v hw, hread⟩

/-- What a list holds is read from values that nest less deep. -/
theorem mem_of_list {α : Type} {n : Nat} {read : Json → Option α} {member : Option Json} {xs : List α}
    (hmember : ∀ v, member = some v → Nested (n + 1) v) (h : defaulted [] (list? read) member = some xs) :
    ∀ x ∈ xs, ∃ v, Nested n v ∧ read v = some x := by
  intro x hx
  cases member with
  | none =>
    cases h
    cases hx
  | some j =>
    cases j with
    | array items =>
      obtain ⟨v, hv, hread⟩ := mem_of_mapM h x hx
      cases hmember _ rfl with
      | array hitems => exact ⟨v, hitems v hv, hread⟩
    | null | bool | number | string | object => cases h

/-- What is there of an optional member is read from a value other than null. -/
theorem optional_eq_some {α : Type} {read : Json → Option α} {member : Option Json} {a : α}
    (h : optional read member = some (some a)) : ∃ v, member = some v ∧ v ≠ .null ∧ read v = some a := by
  unfold optional at h
  split at h
  next => cases h
  next v hnull =>
    obtain ⟨b, hb, heq⟩ := Option.map_eq_some_iff.1 h
    cases heq
    exact ⟨v, rfl, hnull, hb⟩
  next => cases h

end FlatSchema.Json

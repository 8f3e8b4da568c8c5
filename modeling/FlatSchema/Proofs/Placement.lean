import FlatSchema.Layout
import FlatSchema.Proofs.Failure

/-!
# The order in which structs are laid out

Laying out a schema is a run of placements. A placement takes a fixed struct whose parts are all placed and gives its fields
their offsets (`Placement`); nothing else is changed. So every struct is placed once, after its parts, and what it was placed
by stays true at the end of the run: a schema that is laid out is one that lays itself out again (`placeAll_placed`). The order
of the placements bounds the depth of structs inside structs (`Placed.ranked`).
-/

namespace FlatSchema

namespace Layout

/-! ## What the layout of a struct reads -/

/-- Whether the definition at some place is a fixed struct. -/
def fixedAt (structs : List StructDef) (i : Nat) : Bool := (structs[i]?.map (·.fixed)).getD false

/-- The fixed structs among the parts of a struct. -/
def fixedParts (structs : List StructDef) (s : StructDef) : List Nat := (parts s).filter (fixedAt structs)

/-- What other structs see of the struct at some place: its size and alignment, if it is fixed. -/
def footprint (structs : List StructDef) (i : Nat) : Option (Nat × Nat) :=
  structs[i]?.bind fun s => if s.fixed then some (s.byteSize, s.minAlign) else none

/-- The flag at a place is that of the struct there. -/
theorem fixedAt_of_getElem? {structs : List StructDef} {i : Nat} {s : StructDef} (h : structs[i]? = some s) :
    fixedAt structs i = s.fixed := by
  simp [fixedAt, h]

/-- A fixed struct is one of the list. -/
theorem getElem?_of_fixedAt {structs : List StructDef} {i : Nat} (h : fixedAt structs i = true) :
    ∃ s, structs[i]? = some s ∧ s.fixed = true := by
  cases hs : structs[i]? with
  | none => simp [fixedAt, hs] at h
  | some s => exact ⟨s, rfl, by simpa [fixedAt, hs] using h⟩

/-- The size and the alignment of a value that is no array: those of the fixed struct that it is, or else those of its base type. -/
theorem flat_eq (structs : List StructDef) (t : TypeDesc) :
    (flatSize structs t = if t.base = .struct then
      ((t.structRef.bind (footprint structs)).map (·.1)).getD BaseType.struct.size else t.base.size) ∧
    (flatAlignment structs t = if t.base = .struct then
      ((t.structRef.bind (footprint structs)).map (·.2)).getD BaseType.struct.size else t.base.size) := by
  unfold flatSize flatAlignment
  cases hb : t.base <;> simp only [reduceCtorEq, if_false, if_true, and_self]
  cases hr : t.structRef with
  | none => exact ⟨rfl, rfl⟩
  | some i =>
    simp only [Option.bind_some, footprint]
    cases structs[i]? with
    | none => exact ⟨rfl, rfl⟩
    | some s => cases hf : s.fixed <;> simp [hf]

/-- Two lists of structs look the same to a field if they have the same footprint where its type refers to. -/
def SameSight (structs structs' : List StructDef) (t : TypeDesc) : Prop :=
  t.structRef.bind (footprint structs) = t.structRef.bind (footprint structs')

/-- What is not read does not matter: the room of a value that is no array. -/
theorem flat_congr {structs structs' : List StructDef} {t : TypeDesc}
    (h : t.base = .struct → SameSight structs structs' t) :
    flatSize structs t = flatSize structs' t ∧ flatAlignment structs t = flatAlignment structs' t := by
  rw [(flat_eq structs t).1, (flat_eq structs' t).1, (flat_eq structs t).2, (flat_eq structs' t).2]
  by_cases hb : t.base = .struct
  · have hs : t.structRef.bind (footprint structs) = t.structRef.bind (footprint structs') := h hb
    rw [hs]
    exact ⟨rfl, rfl⟩
  · simp [hb]

/-- What is not read does not matter: the room of any value. -/
theorem inline_congr {structs structs' : List StructDef} {t : TypeDesc}
    (h : (t.isStruct || t.isArray) = true → SameSight structs structs' t) :
    inlineSize structs t = inlineSize structs' t ∧ inlineAlignment structs t = inlineAlignment structs' t := by
  unfold inlineSize inlineAlignment
  cases ha : t.isArray with
  | true =>
    -- the elements of an array refer to what the array refers to
    have hs : SameSight structs structs' t.elementType := h (by rw [ha, Bool.or_true])
    obtain ⟨h1, h2⟩ := flat_congr fun _ => hs
    simp [h1, h2]
  | false =>
    obtain ⟨h1, h2⟩ := flat_congr (t := t) fun hb => h (by simp [TypeDesc.isStruct, hb])
    simp [h1, h2]

/-- A struct sees the fields of its parts only. -/
theorem sameSight_of_parts {structs structs' : List StructDef} {s : StructDef}
    (h : ∀ j ∈ parts s, footprint structs j = footprint structs' j) :
    ∀ f ∈ s.fields, (f.type.isStruct || f.type.isArray) = true → SameSight structs structs' f.type := by
  intro f hf ht
  unfold SameSight
  cases hr : f.type.structRef with
  | none => rfl
  | some j =>
    have hj : j ∈ parts s := List.mem_filterMap.2 ⟨f, hf, by rw [if_pos ht, hr]⟩
    exact h j hj

/-- Fields are placed alike if their types look the same. -/
theorem placeFields_congr {structs structs' : List StructDef} (owner : String) :
    ∀ (fields : List FieldDef) (position : Nat),
      (∀ f ∈ fields, (f.type.isStruct || f.type.isArray) = true → SameSight structs structs' f.type) →
      placeFields structs owner position fields = placeFields structs' owner position fields
  | [], _, _ => rfl
  | f :: rest, position, h => by
    have hf := (inline_congr (h f List.mem_cons_self)).1
    have hrest := fun g hg => h g (List.mem_cons_of_mem f hg)
    have ih := fun position => placeFields_congr owner rest position hrest
    cases rest with
    | nil => simp only [placeFields, hf]
    | cons g rest =>
      have hg := (inline_congr (hrest g List.mem_cons_self)).2
      rw [placeFields, placeFields]
      simp only [hf, hg, ih]

/-- Fields ask for the same alignment if their types look the same. -/
theorem naturalAlignment_congr {structs structs' : List StructDef} (fields : List FieldDef)
    (h : ∀ f ∈ fields, (f.type.isStruct || f.type.isArray) = true → SameSight structs structs' f.type) :
    naturalAlignment structs fields = naturalAlignment structs' fields := by
  unfold naturalAlignment
  generalize 1 = a
  induction fields generalizing a with
  | nil => rfl
  | cons f rest ih =>
    rw [List.foldl_cons, List.foldl_cons, (inline_congr (h f List.mem_cons_self)).2]
    exact ih (fun g hg => h g (List.mem_cons_of_mem f hg)) _

/-- The layout of a struct depends on the footprints of its parts only. -/
theorem placeStruct_congr {structs structs' : List StructDef} {s : StructDef}
    (h : ∀ j ∈ parts s, footprint structs j = footprint structs' j) :
    placeStruct structs s = placeStruct structs' s := by
  have hsight := sameSight_of_parts h
  unfold placeStruct
  rw [placeFields_congr s.name s.fields 0 hsight, naturalAlignment_congr s.fields hsight]

/-- The steps by which a fixed struct is laid out. -/
theorem placeStruct_eq_ok {structs : List StructDef} {s d : StructDef} (h : placeStruct structs s = .ok d) :
    ∃ placed stop align, placeFields structs s.name 0 s.fields = .ok (placed, stop) ∧
      alignment s (naturalAlignment structs s.fields) = .ok align ∧
      d = { s with
        fields := padLast (paddingFor stop align) placed
        byteSize := stop + paddingFor stop align
        minAlign := align } := by
  unfold placeStruct at h
  obtain ⟨⟨placed, stop⟩, hp, h⟩ := bind_eq_ok.1 h
  obtain ⟨align, ha, h⟩ := bind_eq_ok.1 h
  exact ⟨placed, stop, align, hp, ha, (pure_eq_ok.1 h).symm⟩

/-- Placing fields never ends with a cycle. -/
theorem placeFields_ne_circular {structs : List StructDef} {owner : String} {names : List String} :
    ∀ {fields : List FieldDef} {position : Nat}, placeFields structs owner position fields ≠ .error (.circular names)
  | [], _ => by
    rw [placeFields]
    intro h
    cases h
  | f :: rest, position => by
    rw [placeFields]
    split
    · intro h
      cases h
    · intro h
      rcases bind_eq_error.1 h with h | ⟨_, _, h⟩
      · exact placeFields_ne_circular h
      · cases h

/-- Nor does the alignment: cycles are found by the walk alone. -/
theorem alignment_ne_circular {s : StructDef} {natural : Nat} {names : List String} :
    alignment s natural ≠ .error (.circular names) := by
  intro h
  unfold alignment at h
  split at h
  · cases h
  · dsimp only at h
    split at h
    · cases h
    · split at h <;> cases h

/-- The layout of one struct reports no cycle. -/
theorem placeStruct_ne_circular {structs : List StructDef} {s : StructDef} {names : List String} :
    placeStruct structs s ≠ .error (.circular names) := by
  intro h
  rcases bind_eq_error.1 h with h | ⟨_, _, h⟩
  · exact placeFields_ne_circular h
  · rcases bind_eq_error.1 h with h | ⟨_, _, h⟩
    · exact alignment_ne_circular h
    · cases h

/-- What the search for structs inside structs needs of the layout of one struct: it leaves a fixed struct one, with its name, and
reports no cycle. Where fields stand and how large the struct becomes does not matter. -/
structure Placer.Keeps (placer : Placer) : Prop where
  fixed : ∀ {structs s d}, placer structs s = .ok d → d.fixed = s.fixed
  name : ∀ {structs s d}, placer structs s = .ok d → d.qualifiedName = s.qualifiedName
  reports : ∀ {structs s names}, placer structs s ≠ .error (.circular names)

/-- Placing a struct keeps what other structs may ask of it. -/
theorem placeStruct_keeps : Placer.Keeps placeStruct where
  fixed h := by
    obtain ⟨_, _, _, _, _, rfl⟩ := placeStruct_eq_ok h
    rfl
  name h := by
    obtain ⟨_, _, _, _, _, rfl⟩ := placeStruct_eq_ok h
    rfl
  reports := placeStruct_ne_circular

/-! ## Placements -/

variable {placer : Placer}

/-- The fixed struct at some place is laid out: it was not before, and the fixed structs inside it were. -/
inductive Placement (placer : Placer) (p : Progress) (i : Nat) : Progress → Prop
  | mk {s placed : StructDef} (hnew : i ∉ p.done) (hs : p.structs[i]? = some s) (hfixed : s.fixed = true)
      (hparts : ∀ j ∈ fixedParts p.structs s, j ∈ p.done) (hplaced : placer p.structs s = .ok placed) :
      Placement placer p i { structs := p.structs.set i placed, done := i :: p.done }

/-- A run of placements, none of them of a struct on the path. -/
inductive Run (placer : Placer) (path : List Nat) (p : Progress) : Progress → Prop
  | refl : Run placer path p p
  | step {q r : Progress} {i : Nat} : Run placer path p q → i ∉ path → Placement placer q i r → Run placer path p r

/-- Runs one after the other are a run. -/
theorem Run.trans {path : List Nat} {p q r : Progress} (h : Run placer path p q) (h' : Run placer path q r) :
    Run placer path p r := by
  induction h' with
  | refl => exact h
  | step _ hi hp ih => exact Run.step ih hi hp

/-- A run that stays off a path stays off the beginning of the path. -/
theorem Run.shorten {path : List Nat} {i : Nat} {p q : Progress} (h : Run placer (path ++ [i]) p q) : Run placer path p q := by
  induction h with
  | refl => exact Run.refl
  | step _ hj hp ih => exact Run.step ih (fun hm => hj (List.mem_append_left _ hm)) hp

/-- Placing a struct leaves the others alone. -/
theorem getElem?_set_of_ne {structs : List StructDef} {i j : Nat} (s : StructDef) (h : j ≠ i) :
    (structs.set i s)[j]? = structs[j]? :=
  List.getElem?_set_ne (Ne.symm h)

/-- A placement changes no definition but one, and that one stays a fixed struct. -/
theorem Placement.fixedAt_eq (hk : placer.Keeps) {p q : Progress} {i : Nat} (h : Placement placer p i q) (j : Nat) :
    fixedAt q.structs j = fixedAt p.structs j := by
  obtain ⟨_, hs, _, _, hplaced⟩ := h
  by_cases hj : j = i
  · subst hj
    have hlt : j < p.structs.length := (List.getElem?_eq_some_iff.1 hs).1
    rw [fixedAt_of_getElem? (List.getElem?_set_self hlt), fixedAt_of_getElem? hs, hk.fixed hplaced]
  · simp only [fixedAt, getElem?_set_of_ne _ hj]

/-- A run keeps which structs are fixed. -/
theorem Run.fixedAt_eq (hk : placer.Keeps) {path : List Nat} {p q : Progress} (h : Run placer path p q) (j : Nat) :
    fixedAt q.structs j = fixedAt p.structs j := by
  induction h with
  | refl => rfl
  | step _ _ hp ih => rw [hp.fixedAt_eq hk, ih]

/-- What is placed stays placed. -/
theorem Run.done_mono {path : List Nat} {p q : Progress} (h : Run placer path p q) {j : Nat} (hj : j ∈ p.done) : j ∈ q.done := by
  induction h with
  | refl => exact hj
  | step _ _ hp ih =>
    obtain ⟨_, _, _, _, _⟩ := hp
    exact List.mem_cons_of_mem _ ih

/-- A run leaves the structs on its path as they were. -/
theorem Run.path_kept {path : List Nat} {p q : Progress} (h : Run placer path p q) {j : Nat} (hj : j ∈ path) :
    q.structs[j]? = p.structs[j]? ∧ (j ∈ q.done → j ∈ p.done) := by
  induction h with
  | refl => exact ⟨rfl, id⟩
  | @step _ _ i _ hi hp ih =>
    obtain ⟨_, _, _, _, _⟩ := hp
    have hne : j ≠ i := fun e => hi (e ▸ hj)
    refine ⟨(getElem?_set_of_ne _ hne).trans ih.1, ?_⟩
    intro hm
    rcases List.mem_cons.1 hm with rfl | hm
    · exact absurd hj hi
    · exact ih.2 hm

/-- So the fixed parts of a struct stay the same. -/
theorem fixedParts_congr {structs structs' : List StructDef} (h : ∀ j, fixedAt structs' j = fixedAt structs j)
    (s : StructDef) : fixedParts structs' s = fixedParts structs s := by
  have hfun : fixedAt structs' = fixedAt structs := funext h
  simp only [fixedParts, hfun]

/-- Laying out several structs one after the other is a run, if laying out each of them is. -/
theorem foldlM_run (hk : placer.Keeps) {place : Progress → Nat → Except LoadError Progress} {path : List Nat}
    (hplace : ∀ p i q, place p i = .ok q → fixedAt p.structs i = true → Run placer path p q ∧ i ∈ q.done) :
    ∀ (is : List Nat) (p q : Progress), is.foldlM place p = .ok q → (∀ i ∈ is, fixedAt p.structs i = true) →
      Run placer path p q ∧ ∀ i ∈ is, i ∈ q.done
  | [], p, q, h, _ => by
    rw [List.foldlM_nil, pure_eq_ok] at h
    subst h
    exact ⟨Run.refl, fun i hi => absurd hi List.not_mem_nil⟩
  | i :: is, p, r, h, hfixed => by
    rw [List.foldlM_cons, bind_eq_ok] at h
    obtain ⟨q, hq, h⟩ := h
    obtain ⟨hrun, hi⟩ := hplace p i q hq (hfixed i List.mem_cons_self)
    have hfixed' : ∀ j ∈ is, fixedAt q.structs j = true := by
      intro j hj
      rw [hrun.fixedAt_eq hk]
      exact hfixed j (List.mem_cons_of_mem i hj)
    obtain ⟨hrun', his⟩ := foldlM_run hk hplace is q r h hfixed'
    refine ⟨hrun.trans hrun', ?_⟩
    intro j hj
    rcases List.mem_cons.1 hj with rfl | hj
    · exact hrun'.done_mono hi
    · exact his j hj

section Search

variable {fuel : Nat} {path : List Nat} {p : Progress} {i : Nat}

/-- A struct that is placed is not placed again. -/
theorem placeFixed_of_done (h : i ∈ p.done) : placeFixed placer (fuel + 1) path p i = .ok p := by
  rw [placeFixed, if_pos (List.contains_iff_mem.2 h)]

/-- A struct that is met again on the way down closes a cycle, and the error names the way. -/
theorem placeFixed_of_mem_path (hnew : i ∉ p.done) (h : i ∈ path) :
    placeFixed placer (fuel + 1) path p i = .error (.circular ((path ++ [i]).map p.name)) := by
  rw [placeFixed, if_neg (fun hc => hnew (List.contains_iff_mem.1 hc)), if_pos (List.contains_iff_mem.2 h)]

/-- A struct that is not placed and not on the path is placed after its parts. -/
theorem placeFixed_of_new {s : StructDef} (hnew : i ∉ p.done) (hpath : i ∉ path) (hs : p.structs[i]? = some s) :
    placeFixed placer (fuel + 1) path p i =
      ((fixedParts p.structs s).foldlM (placeFixed placer fuel (path ++ [i])) p >>= fun q =>
        placer q.structs s >>= fun placed => .ok { structs := q.structs.set i placed, done := i :: q.done }) := by
  rw [placeFixed, if_neg (fun hc => hnew (List.contains_iff_mem.1 hc)), if_neg (fun hc => hpath (List.contains_iff_mem.1 hc))]
  simp only [hs]
  rfl

end Search

/-- Laying out a fixed struct is a run of placements that stays off the structs around it, and the struct is placed at its
end. -/
theorem placeFixed_run (hk : placer.Keeps) : ∀ (fuel : Nat) (path : List Nat) (p : Progress) (i : Nat) (q : Progress),
    placeFixed placer fuel path p i = .ok q → fixedAt p.structs i = true → Run placer path p q ∧ i ∈ q.done
  | 0, _, _, _, _, h, _ => by nomatch h
  | fuel + 1, path, p, i, r, h, hfixed => by
    obtain ⟨s, hs, hsf⟩ := getElem?_of_fixedAt hfixed
    by_cases hdone : i ∈ p.done
    · rw [placeFixed_of_done hdone] at h
      cases h
      exact ⟨Run.refl, hdone⟩
    by_cases hpath : i ∈ path
    · rw [placeFixed_of_mem_path hdone hpath] at h
      cases h
    rw [placeFixed_of_new hdone hpath hs] at h
    obtain ⟨q, hq, h⟩ := bind_eq_ok.1 h
    obtain ⟨placed, hplaced, h⟩ := bind_eq_ok.1 h
    cases h
    -- the parts are laid out with the struct on the path, so the struct itself is untouched when its turn comes
    obtain ⟨hrun, hparts⟩ := foldlM_run hk (placeFixed_run hk fuel (path ++ [i])) (fixedParts p.structs s) p q hq
      fun j hj => (List.mem_filter.1 hj).2
    obtain ⟨hkept, hnew⟩ := hrun.path_kept (j := i) (by simp)
    have hplacement : Placement placer q i { structs := q.structs.set i placed, done := i :: q.done } := by
      refine Placement.mk (fun hm => hdone (hnew hm)) (hkept.trans hs) hsf ?_ hplaced
      rw [fixedParts_congr (hrun.fixedAt_eq hk)]
      exact hparts
    exact ⟨hrun.shorten.step hpath hplacement, List.mem_cons_self⟩

/-! ## What a run keeps -/

/-- A list of structs in which none stands twice and each stands before the fixed structs inside it. -/
def Ordered (structs : List StructDef) : List Nat → Prop
  | [] => True
  | i :: rest =>
    i ∉ rest ∧ (∀ s, structs[i]? = some s → ∀ j ∈ fixedParts structs s, j ∈ rest) ∧ Ordered structs rest

/-- The parts of a struct come before it, so they have been placed as well. -/
theorem Ordered.parts_mem {structs : List StructDef} {i : Nat} {s : StructDef} (hs : structs[i]? = some s) :
    ∀ {order : List Nat}, Ordered structs order → i ∈ order → ∀ j ∈ fixedParts structs s, j ∈ order
  | [], _, hi, _, _ => absurd hi List.not_mem_nil
  | k :: rest, h, hi, j, hj => by
    obtain ⟨_, hk, hrest⟩ := h
    rcases List.mem_cons.1 hi with rfl | hi
    · exact List.mem_cons_of_mem _ (hk s hs j hj)
    · exact List.mem_cons_of_mem _ (hrest.parts_mem hs hi j hj)

/-- The qualified name of the struct at some place. -/
def nameAt (structs : List StructDef) (i : Nat) : String := (structs[i]?.map StructDef.qualifiedName).getD ""

/-- How far structs are laid out, whatever way it is done: what is not placed is as it was declared, what is placed is a fixed struct
of the name that it was declared with, and the structs were placed after their parts. -/
structure Traced (declared : List StructDef) (p : Progress) : Prop where
  length_eq : p.structs.length = declared.length
  fixed_eq : ∀ j, fixedAt p.structs j = fixedAt declared j
  pending : ∀ j, fixedAt declared j = true → j ∉ p.done → p.structs[j]? = declared[j]?
  name_eq : ∀ j, fixedAt declared j = true → nameAt p.structs j = nameAt declared j
  done_fixed : ∀ j ∈ p.done, fixedAt declared j = true
  ordered : Ordered declared p.done

/-- The same, and what is placed is what its declaration gives beside the structs as they are now. -/
structure Sound (declared : List StructDef) (p : Progress) : Prop extends Traced declared p where
  placed : ∀ j ∈ p.done, ∃ s d, declared[j]? = some s ∧ s.fixed = true ∧ p.structs[j]? = some d ∧
    placeStruct p.structs s = .ok d

theorem nameAt_set_of_ne {structs : List StructDef} {i j : Nat} (s : StructDef) (h : j ≠ i) :
    nameAt (structs.set i s) j = nameAt structs j := by
  rw [nameAt, nameAt, getElem?_set_of_ne s h]

theorem nameAt_of_getElem? {structs : List StructDef} {i : Nat} {s : StructDef} (h : structs[i]? = some s) :
    nameAt structs i = s.qualifiedName := by
  simp [nameAt, h]

/-- Placing a struct changes no other footprint. -/
theorem footprint_set_of_ne {structs : List StructDef} {i j : Nat} (s : StructDef) (h : j ≠ i) :
    footprint (structs.set i s) j = footprint structs j := by
  rw [footprint, footprint, getElem?_set_of_ne s h]

/-- A struct whose fixed parts are all placed does not see a fixed struct that is not. -/
theorem ne_of_mem_parts {structs : List StructDef} {done : List Nat} {i : Nat} {s : StructDef}
    (hi : fixedAt structs i = true) (hnew : i ∉ done) (hparts : ∀ j ∈ fixedParts structs s, j ∈ done) :
    ∀ j ∈ parts s, j ≠ i := by
  rintro j hj rfl
  exact hnew (hparts j (List.mem_filter.2 ⟨hj, hi⟩))

/-- What a placement finds: the declaration of a fixed struct, whose parts are placed. -/
theorem Placement.declared_eq {declared : List StructDef} {p q : Progress} {i : Nat} (h : Traced declared p)
    (hp : Placement placer p i q) : ∃ s placed, declared[i]? = some s ∧ fixedAt declared i = true ∧ i ∉ p.done ∧ s.fixed = true ∧
      i < p.structs.length ∧ (∀ j ∈ fixedParts declared s, j ∈ p.done) ∧ placer p.structs s = .ok placed ∧
      q = { structs := p.structs.set i placed, done := i :: p.done } := by
  obtain ⟨hnew, hs, hsf, hparts, hplaced⟩ := hp
  have hi : fixedAt declared i = true := by rw [← h.fixed_eq, fixedAt_of_getElem? hs, hsf]
  rw [fixedParts_congr h.fixed_eq] at hparts
  exact ⟨_, _, (h.pending i hi hnew).symm.trans hs, hi, hnew, hsf, (List.getElem?_eq_some_iff.1 hs).1, hparts, hplaced, rfl⟩

/-- A placement can be traced. -/
theorem Placement.traced (hk : placer.Keeps) {declared : List StructDef} {p q : Progress} {i : Nat} (h : Traced declared p)
    (hp : Placement placer p i q) : Traced declared q := by
  have hfixed := hp.fixedAt_eq hk
  obtain ⟨s, placed, hdecl, hi, hnew, _, hlt, hparts, hplaced, rfl⟩ := hp.declared_eq h
  refine ⟨(List.length_set ..).trans h.length_eq, fun j => (hfixed j).trans (h.fixed_eq j), ?_, ?_, ?_, hnew, ?_, h.ordered⟩
  · intro j hj hjnew
    have hne : j ≠ i := fun e => hjnew (e ▸ List.mem_cons_self)
    rw [getElem?_set_of_ne placed hne]
    exact h.pending j hj fun hm => hjnew (List.mem_cons_of_mem i hm)
  · intro j hj
    by_cases hne : j = i
    · subst hne
      rw [nameAt_of_getElem? (List.getElem?_set_self hlt), hk.name hplaced, nameAt_of_getElem? hdecl]
    · rw [nameAt_set_of_ne placed hne]
      exact h.name_eq j hj
  · intro j hj
    rcases List.mem_cons.1 hj with rfl | hj
    · exact hi
    · exact h.done_fixed j hj
  · intro s' hs' j hj
    rw [hdecl, Option.some.injEq] at hs'
    exact hparts j (hs' ▸ hj)

/-- A run keeps the trace. -/
theorem Run.traced (hk : placer.Keeps) {declared : List StructDef} {path : List Nat} {p q : Progress} (h : Traced declared p)
    (hr : Run placer path p q) : Traced declared q := by
  induction hr with
  | refl => exact h
  | step _ _ hp ih => exact hp.traced hk ih

/-- A placement keeps a layout sound. -/
theorem Placement.sound {declared : List StructDef} {p q : Progress} {i : Nat} (h : Sound declared p)
    (hp : Placement placeStruct p i q) : Sound declared q := by
  refine ⟨hp.traced placeStruct_keeps h.toTraced, ?_⟩
  obtain ⟨s, placed, hdecl, hi, hnew, hsf, hlt, hparts, hplaced, rfl⟩ := hp.declared_eq h.toTraced
  have hsee : ∀ s', (∀ j ∈ fixedParts declared s', j ∈ p.done) →
      placeStruct (p.structs.set i placed) s' = placeStruct p.structs s' := by
    intro s' hs'
    exact placeStruct_congr fun j hj => footprint_set_of_ne placed (ne_of_mem_parts hi hnew hs' j hj)
  intro j hj
  rcases List.mem_cons.1 hj with rfl | hj
  · exact ⟨s, placed, hdecl, hsf, List.getElem?_set_self hlt, (hsee s hparts).trans hplaced⟩
  · obtain ⟨s', d, hs', hsf', hd, hpl⟩ := h.placed j hj
    have hne : j ≠ i := fun e => hnew (e ▸ hj)
    exact ⟨s', d, hs', hsf', (getElem?_set_of_ne placed hne).trans hd,
      (hsee s' (h.ordered.parts_mem hs' hj)).trans hpl⟩

/-- A run keeps what is placed sound: what is placed later changes no footprint that has been read. -/
theorem Run.sound {declared : List StructDef} {path : List Nat} {p q : Progress} (h : Sound declared p)
    (hr : Run placeStruct path p q) : Sound declared q := by
  induction hr with
  | refl => exact h
  | step _ _ hp ih => exact hp.sound ih

/-- A run does not touch tables. -/
theorem Run.table_kept (hk : placer.Keeps) {path : List Nat} {p q : Progress} (hr : Run placer path p q) {j : Nat}
    (hj : fixedAt p.structs j = false) : q.structs[j]? = p.structs[j]? := by
  induction hr with
  | refl => rfl
  | @step q r i hr _ hp ih =>
    obtain ⟨_, hs, hsf, _, _⟩ := hp
    have hi : fixedAt p.structs i = true := by rw [← hr.fixedAt_eq hk, fixedAt_of_getElem? hs, hsf]
    have hne : j ≠ i := fun e => by rw [e, hi] at hj; cases hj
    exact (getElem?_set_of_ne _ hne).trans ih

theorem Traced.start (declared : List StructDef) : Traced declared { structs := declared, done := [] } :=
  ⟨rfl, fun _ => rfl, fun _ _ _ => rfl, fun _ _ => rfl, fun _ hj => absurd hj List.not_mem_nil, trivial⟩

/-- A layout is sound before anything is placed. -/
theorem Sound.start (declared : List StructDef) : Sound declared { structs := declared, done := [] } :=
  ⟨.start declared, fun _ hj => absurd hj List.not_mem_nil⟩

section Tables

variable {declared : List StructDef} {p : Progress} {i : Nat} {s : StructDef} {fields : List FieldDef}

/-- A fixed struct is at another place than a table. -/
theorem Traced.ne_table (h : Traced declared p) (hs : p.structs[i]? = some s) (hsf : s.fixed = false) {j : Nat}
    (hj : fixedAt declared j = true) : j ≠ i := by
  rintro rfl
  rw [← h.fixed_eq, fixedAt_of_getElem? hs, hsf] at hj
  cases hj

/-- The places of a table do not show in the trace of a layout. -/
theorem Traced.setTable (h : Traced declared p) (hs : p.structs[i]? = some s) (hsf : s.fixed = false) :
    Traced declared { p with structs := p.structs.set i { s with fields } } := by
  have hlt : i < p.structs.length := (List.getElem?_eq_some_iff.1 hs).1
  have hfixed : ∀ j, fixedAt (p.structs.set i { s with fields }) j = fixedAt p.structs j := by
    intro j
    by_cases hj : j = i
    · subst hj
      rw [fixedAt_of_getElem? (List.getElem?_set_self hlt), fixedAt_of_getElem? hs]
    · simp only [fixedAt, getElem?_set_of_ne _ hj]
  refine ⟨(List.length_set ..).trans h.length_eq, fun j => (hfixed j).trans (h.fixed_eq j), ?_, ?_, h.done_fixed, h.ordered⟩
  · intro j hj hnew
    rw [getElem?_set_of_ne _ (h.ne_table hs hsf hj)]
    exact h.pending j hj hnew
  · intro j hj
    rw [nameAt_set_of_ne _ (h.ne_table hs hsf hj)]
    exact h.name_eq j hj

/-- Changing the fields of a table keeps a layout sound: no struct sees into a table. -/
theorem Sound.setTable (h : Sound declared p) (hs : p.structs[i]? = some s) (hsf : s.fixed = false) :
    Sound declared { p with structs := p.structs.set i { s with fields } } := by
  have hlt : i < p.structs.length := (List.getElem?_eq_some_iff.1 hs).1
  have hfoot : ∀ j, footprint (p.structs.set i { s with fields }) j = footprint p.structs j := by
    intro j
    by_cases hj : j = i
    · subst hj
      rw [footprint, footprint, List.getElem?_set_self hlt, hs]
      rfl
    · exact footprint_set_of_ne _ hj
  refine ⟨h.toTraced.setTable hs hsf, fun j hj => ?_⟩
  obtain ⟨s', d, hs', hsf', hd, hpl⟩ := h.placed j hj
  have hji := h.ne_table hs hsf (h.done_fixed j hj)
  exact ⟨s', d, hs', hsf', (getElem?_set_of_ne _ hji).trans hd, (placeStruct_congr fun k _ => hfoot k).trans hpl⟩

end Tables

/-! ## The whole layout -/

/-- The steps of one turn: the search below a fixed struct, or the places of a table. -/
theorem place_eq_ok (hk : placer.Keeps) {p q : Progress} {i : Nat} {s : StructDef} (hs : p.structs[i]? = some s)
    (h : place placer p i = .ok q) :
    (s.fixed = true ∧ Run placer [] p q ∧ i ∈ q.done) ∨
      (s.fixed = false ∧ ∃ fields, placeSlots s.name 0 s.fields = .ok fields ∧
        q = { p with structs := p.structs.set i { s with fields } }) := by
  unfold place at h
  simp only [hs] at h
  by_cases hsf : s.fixed = true
  · rw [if_pos hsf] at h
    exact .inl ⟨hsf, placeFixed_run hk _ _ p i q h ((fixedAt_of_getElem? hs).trans hsf)⟩
  · rw [if_neg hsf] at h
    obtain ⟨fields, hfields, h⟩ := bind_eq_ok.1 h
    exact .inr ⟨Bool.eq_false_iff.2 hsf, fields, hfields, (pure_eq_ok.1 h).symm⟩

/-- One turn of a layout can be traced, and the definition whose turn it is comes out as done if it is a fixed struct. -/
theorem place_traced (hk : placer.Keeps) {declared : List StructDef} {p q : Progress} {i : Nat} (hi : i < declared.length)
    (h : place placer p i = .ok q) (hp : Traced declared p) :
    Traced declared q ∧ (∀ j ∈ p.done, j ∈ q.done) ∧ (fixedAt declared i = true → i ∈ q.done) := by
  have hs : p.structs[i]? = some _ := List.getElem?_eq_getElem (hp.length_eq ▸ hi)
  have hfix := (hp.fixed_eq i).symm.trans (fixedAt_of_getElem? hs)
  rcases place_eq_ok hk hs h with ⟨_, hrun, hdone⟩ | ⟨hsf, _, _, rfl⟩
  · exact ⟨hrun.traced hk hp, fun j hj => hrun.done_mono hj, fun _ => hdone⟩
  · refine ⟨hp.setTable hs hsf, fun j hj => hj, fun hc => ?_⟩
    rw [hfix, hsf] at hc
    cases hc

/-- After some turns a layout can be traced, and the fixed structs whose turn has come are done. -/
theorem foldlM_place_traced (hk : placer.Keeps) {declared : List StructDef} {n : Nat} {p : Progress} (hn : n ≤ declared.length)
    (h : (List.range n).foldlM (place placer) { structs := declared, done := [] } = .ok p) :
    Traced declared p ∧ ∀ i, i < n → fixedAt declared i = true → i ∈ p.done := by
  refine foldlM_range_induction
    (P := fun k p => Traced declared p ∧ ∀ i, i < k → fixedAt declared i = true → i ∈ p.done) h ?_ ?_
  · exact ⟨.start declared, fun i hi => absurd hi (Nat.not_lt_zero i)⟩
  · rintro k hlt p q ⟨htraced, hdone⟩ hq
    obtain ⟨htraced', hmono, hlast⟩ := place_traced hk (Nat.lt_of_lt_of_le hlt hn) hq htraced
    refine ⟨htraced', fun i hi hfi => ?_⟩
    by_cases hik : i = k
    · exact hik ▸ hlast (hik ▸ hfi)
    · exact hmono i (hdone i (by omega) hfi)

/-- When all turns are over, the fixed structs can be listed so that each stands before the structs inside it. -/
theorem placeAllBy_ordered (hk : placer.Keeps) {declared structs : List StructDef} (h : placeAllBy placer declared = .ok structs) :
    ∃ order, Ordered declared order ∧ ∀ i, fixedAt declared i = true ↔ i ∈ order := by
  obtain ⟨p, hp, _⟩ := bind_eq_ok.1 h
  obtain ⟨htraced, hdone⟩ := foldlM_place_traced hk (Nat.le_refl _) hp
  refine ⟨p.done, htraced.ordered, fun i => ⟨fun hi => ?_, htraced.done_fixed i⟩⟩
  obtain ⟨s, hs, _⟩ := getElem?_of_fixedAt hi
  exact hdone i (List.getElem?_eq_some_iff.1 hs).1 hi

/-- The table at some place is as it was declared, or has its slots once its turn has come. -/
def TableAt (declared : List StructDef) (turn : Nat) (structs : List StructDef) : Prop :=
  ∀ (i : Nat) (s : StructDef), declared[i]? = some s → s.fixed = false →
    (turn ≤ i → structs[i]? = some s) ∧
    (i < turn → ∃ fields, placeSlots s.name 0 s.fields = .ok fields ∧ structs[i]? = some { s with fields })

theorem TableAt.start (declared : List StructDef) : TableAt declared 0 declared :=
  fun i _ hs _ => ⟨fun _ => hs, fun hi => absurd hi (Nat.not_lt_zero i)⟩

/-- One turn of the layout: the definition at some place is laid out. -/
theorem place_sound {declared : List StructDef} {p q : Progress} {i : Nat} (hi : i < declared.length)
    (h : place placeStruct p i = .ok q) (hp : Sound declared p) (ht : TableAt declared i p.structs) :
    Sound declared q ∧ TableAt declared (i + 1) q.structs := by
  have hlt : i < p.structs.length := hp.length_eq ▸ hi
  obtain ⟨s, hs⟩ : ∃ s, p.structs[i]? = some s := ⟨_, List.getElem?_eq_getElem hlt⟩
  have hfix : fixedAt declared i = s.fixed := (hp.fixed_eq i).symm.trans (fixedAt_of_getElem? hs)
  rcases place_eq_ok placeStruct_keeps hs h with ⟨hsf, hrun, _⟩ | ⟨hsf, fields, hfields, rfl⟩
  · refine ⟨hrun.sound hp, fun j d hd hdf => ?_⟩
    have hne : j ≠ i := fun e => by
      rw [← e, fixedAt_of_getElem? hd, hdf, hsf] at hfix
      cases hfix
    have hkept : q.structs[j]? = p.structs[j]? :=
      hrun.table_kept placeStruct_keeps ((hp.fixed_eq j).trans ((fixedAt_of_getElem? hd).trans hdf))
    rw [hkept]
    obtain ⟨hlater, hearlier⟩ := ht j d hd hdf
    exact ⟨fun hj => hlater (by omega), fun hj => hearlier (by omega)⟩
  · refine ⟨hp.setTable hs hsf, fun j d hd hdf => ?_⟩
    obtain ⟨hlater, hearlier⟩ := ht j d hd hdf
    by_cases hj : j = i
    · subst hj
      have hds : s = d := Option.some.inj (hs.symm.trans (hlater (Nat.le_refl j)))
      subst hds
      exact ⟨fun hle => by omega, fun _ => ⟨fields, hfields, List.getElem?_set_self hlt⟩⟩
    · rw [getElem?_set_of_ne _ hj]
      exact ⟨fun hle => hlater (by omega), fun hlt' => hearlier (by omega)⟩

/-- After some turns of the layout the state is sound, and the tables have been reached in their order. -/
theorem foldlM_place_sound {declared : List StructDef} {n : Nat} {p : Progress} (hn : n ≤ declared.length)
    (h : (List.range n).foldlM (place placeStruct) { structs := declared, done := [] } = .ok p) :
    Sound declared p ∧ TableAt declared n p.structs := by
  refine foldlM_range_induction (P := fun k p => Sound declared p ∧ TableAt declared k p.structs) h
    ⟨Sound.start declared, TableAt.start declared⟩ ?_
  rintro k hk p q ⟨hsound, htable⟩ hq
  exact place_sound (Nat.lt_of_lt_of_le hk hn) hq hsound htable

/-- What laying out a schema gives: every fixed struct is what its declaration gives beside the structs of the result, every
table has its slots, and the structs can be listed so that each stands before the structs inside it. -/
structure Placed (declared structs : List StructDef) : Prop where
  length_eq : structs.length = declared.length
  fixed : ∀ (i : Nat) (s : StructDef), declared[i]? = some s → s.fixed = true →
    ∃ d, structs[i]? = some d ∧ placeStruct structs s = .ok d
  table : ∀ (i : Nat) (s : StructDef), declared[i]? = some s → s.fixed = false →
    ∃ fields, placeSlots s.name 0 s.fields = .ok fields ∧ structs[i]? = some { s with fields }
  ordered : ∃ order, Ordered declared order ∧ ∀ i, fixedAt declared i = true ↔ i ∈ order

/-- A layout that succeeds places all structs and tables. -/
theorem placeAll_placed {declared structs : List StructDef} (h : placeAll declared = .ok structs) :
    Placed declared structs := by
  have hordered := placeAllBy_ordered placeStruct_keeps h
  obtain ⟨p, hp, h⟩ := bind_eq_ok.1 h
  cases h
  obtain ⟨hsound, htable⟩ := foldlM_place_sound (Nat.le_refl _) hp
  obtain ⟨_, hdone⟩ := foldlM_place_traced placeStruct_keeps (Nat.le_refl _) hp
  refine ⟨hsound.length_eq, fun i s hs hsf => ?_, fun i s hs hsf => ?_, hordered⟩
  · have hlt := (List.getElem?_eq_some_iff.1 hs).1
    obtain ⟨s', d, hs', _, hd, hpl⟩ := hsound.placed i (hdone i hlt ((fixedAt_of_getElem? hs).trans hsf))
    rw [hs, Option.some.injEq] at hs'
    subst hs'
    exact ⟨d, hd, hpl⟩
  · exact (htable i s hs hsf).2 (List.getElem?_eq_some_iff.1 hs).1

/-! ## What layout does not change -/

end Layout

/-- A field as it is before it is laid out. -/
def FieldDef.unplaced (f : FieldDef) : FieldDef := { f with offset := 0, padding := 0 }

/-- A struct or table as it is before it is laid out. -/
def StructDef.unplaced (d : StructDef) : StructDef :=
  { d with fields := d.fields.map FieldDef.unplaced, minAlign := 1, byteSize := 0 }

namespace Layout

/-- Slots change nothing but where the fields lie. -/
theorem placeSlots_unplaced {table : String} : ∀ {slot : Nat} {fields placed : List FieldDef},
    placeSlots table slot fields = .ok placed → placed.map FieldDef.unplaced = fields.map FieldDef.unplaced
  | _, [], placed, h => by
    cases h
    rfl
  | slot, f :: rest, placed, h => by
    rw [placeSlots] at h
    obtain ⟨_, h⟩ := error_ite_eq_ok.1 h
    obtain ⟨later, hlater, h⟩ := bind_eq_ok.1 h
    cases h
    rw [List.map_cons, List.map_cons, placeSlots_unplaced hlater]
    rfl

/-- Placing the fields of a struct changes nothing but where they lie. -/
theorem placeFields_unplaced {structs : List StructDef} {owner : String} :
    ∀ {position : Nat} {fields placed : List FieldDef} {stop : Nat},
      placeFields structs owner position fields = .ok (placed, stop) →
      placed.map FieldDef.unplaced = fields.map FieldDef.unplaced
  | _, [], placed, stop, h => by
    cases h
    rfl
  | position, f :: rest, placed, stop, h => by
    rw [placeFields] at h
    obtain ⟨_, h⟩ := error_ite_eq_ok.1 h
    obtain ⟨⟨later, stop'⟩, hlater, h⟩ := bind_eq_ok.1 h
    cases h
    rw [List.map_cons, List.map_cons, placeFields_unplaced hlater]
    rfl

/-- The padding at the end changes nothing but where the fields lie. -/
theorem padLast_unplaced (padding : Nat) : ∀ fields : List FieldDef,
    (padLast padding fields).map FieldDef.unplaced = fields.map FieldDef.unplaced
  | [] => rfl
  | [_] => rfl
  | f :: g :: rest => by rw [padLast, List.map_cons, List.map_cons, padLast_unplaced padding (g :: rest)]

/-- Placing a struct changes nothing but where its fields lie and how large it is. -/
theorem placeStruct_unplaced {structs : List StructDef} {s d : StructDef} (h : placeStruct structs s = .ok d) :
    d.unplaced = s.unplaced := by
  obtain ⟨placed, stop, align, hfields, _, rfl⟩ := placeStruct_eq_ok h
  simp only [StructDef.unplaced, padLast_unplaced, placeFields_unplaced hfields]

/-- Up to offsets, padding, sizes and alignments a definition that is laid out is the one that was declared. -/
theorem Placed.unplaced {declared structs : List StructDef} (h : Placed declared structs) {i : Nat} {d : StructDef}
    (hd : structs[i]? = some d) : ∃ s, declared[i]? = some s ∧ d.unplaced = s.unplaced := by
  have hlt : i < declared.length := h.length_eq ▸ (List.getElem?_eq_some_iff.1 hd).1
  refine ⟨declared[i], List.getElem?_eq_getElem hlt, ?_⟩
  by_cases hf : declared[i].fixed = true
  · obtain ⟨d', hd', hplaced⟩ := h.fixed i _ (List.getElem?_eq_getElem hlt) hf
    rw [hd, Option.some.injEq] at hd'
    subst hd'
    exact placeStruct_unplaced hplaced
  · obtain ⟨fields, hfields, hd'⟩ := h.table i _ (List.getElem?_eq_getElem hlt) (Bool.eq_false_iff.2 hf)
    rw [hd, Option.some.injEq] at hd'
    subst hd'
    simp only [StructDef.unplaced, placeSlots_unplaced hfields]

end Layout

/-- The flag does not depend on where the fields lie. -/
theorem StructDef.fixed_of_unplaced {d s : StructDef} (h : d.unplaced = s.unplaced) : d.fixed = s.fixed := by
  have hfixed := congrArg StructDef.fixed h
  exact hfixed

/-- The fields of definitions that agree before they are laid out agree place by place. -/
theorem StructDef.field_of_unplaced {d s : StructDef} (h : d.unplaced = s.unplaced) {k : Nat} {f : FieldDef}
    (hf : d.fields[k]? = some f) : ∃ g, s.fields[k]? = some g ∧ f.unplaced = g.unplaced := by
  have hfields : d.fields.map FieldDef.unplaced = s.fields.map FieldDef.unplaced := congrArg StructDef.fields h
  have hk := congrArg (·[k]?) hfields
  simp only [List.getElem?_map, hf, Option.map_some] at hk
  obtain ⟨g, hg, hfg⟩ := Option.map_eq_some_iff.1 hk.symm
  exact ⟨g, hg, hfg.symm⟩

/-- Fields that agree before they are laid out differ in their offsets and padding only. -/
theorem FieldDef.of_unplaced {f g : FieldDef} (h : f.unplaced = g.unplaced) :
    f = { g with offset := f.offset, padding := f.padding } := by
  have hf : { f.unplaced with offset := f.offset, padding := f.padding } = f := rfl
  rw [← hf, h]
  rfl

namespace Layout

/-! ## The depth of structs inside structs -/

/-- The number of structs that stand after a struct in a list. -/
def rankIn : List Nat → Nat → Nat
  | [], _ => 0
  | i :: rest, k => if k = i then rest.length else rankIn rest k

/-- The rank of a struct in an order is below the length of the order. -/
theorem rankIn_lt : ∀ {order : List Nat} {k : Nat}, k ∈ order → rankIn order k < order.length
  | [], _, h => absurd h List.not_mem_nil
  | i :: rest, k, h => by
    rw [rankIn, List.length_cons]
    by_cases hk : k = i
    · rw [if_pos hk]
      omega
    · rw [if_neg hk]
      have := rankIn_lt ((List.mem_cons.1 h).resolve_left hk)
      omega

/-- No struct is placed twice. -/
theorem Ordered.nodup {structs : List StructDef} : ∀ {order : List Nat}, Ordered structs order → order.Nodup
  | [], _ => List.nodup_nil
  | _ :: _, h => List.nodup_cons.2 ⟨h.1, h.2.2.nodup⟩

/-- There are no more fixed structs in a list than there are structs. -/
theorem Ordered.length_le {structs : List StructDef} {order : List Nat} (h : Ordered structs order)
    (hmem : ∀ i, fixedAt structs i = true ↔ i ∈ order) : order.length ≤ structs.length := by
  rw [← List.length_range (n := structs.length)]
  apply h.nodup.length_le_of_subset
  intro i hi
  obtain ⟨s, hs, _⟩ := getElem?_of_fixedAt ((hmem i).2 hi)
  exact List.mem_range.2 (List.getElem?_eq_some_iff.1 hs).1

/-- The structs inside a struct have a lower rank. -/
theorem Ordered.rankIn_lt {structs : List StructDef} {i j : Nat} {s : StructDef} (hs : structs[i]? = some s)
    (hj : j ∈ fixedParts structs s) :
    ∀ {order : List Nat}, Ordered structs order → i ∈ order → rankIn order j < rankIn order i
  | [], _, hi => absurd hi List.not_mem_nil
  | k :: rest, h, hi => by
    obtain ⟨hk, hparts, hrest⟩ := h
    have hjrest : j ∈ rest := by
      rcases List.mem_cons.1 hi with rfl | hi
      · exact hparts s hs j hj
      · exact hrest.parts_mem hs hi j hj
    have hjk : j ≠ k := fun e => hk (e ▸ hjrest)
    rw [rankIn, rankIn, if_neg hjk]
    by_cases hik : i = k
    · rw [if_pos hik]
      exact Layout.rankIn_lt hjrest
    · rw [if_neg hik]
      exact hrest.rankIn_lt hs hj ((List.mem_cons.1 hi).resolve_left hik)

/-- Ranks of fixed structs: below the number of structs, and lower for a struct that is a field of another, or an element of an
array there. -/
structure Ranked (structs : List StructDef) (rank : Nat → Nat) : Prop where
  lt : ∀ (i : Nat) (d : StructDef), structs[i]? = some d → d.fixed = true → rank i < structs.length
  part : ∀ (i : Nat) (d : StructDef), structs[i]? = some d → d.fixed = true →
    ∀ f ∈ d.fields, (f.type.isStruct || f.type.isArray) = true →
      ∀ (j : Nat) (inner : StructDef), f.type.structRef = some j → structs[j]? = some inner → inner.fixed = true →
        rank j < rank i

/-- A layout keeps which structs are fixed. -/
theorem Placed.fixedAt_eq {declared structs : List StructDef} (h : Placed declared structs) {i : Nat} {d : StructDef}
    (hd : structs[i]? = some d) : fixedAt declared i = d.fixed := by
  obtain ⟨s, hs, hu⟩ := h.unplaced hd
  rw [fixedAt_of_getElem? hs, StructDef.fixed_of_unplaced hu]

/-- The fixed structs of a schema that is laid out can be ranked: no chain of structs inside structs is longer than their
number. -/
theorem Placed.ranked {declared structs : List StructDef} (h : Placed declared structs) : ∃ rank, Ranked structs rank := by
  obtain ⟨order, hord, hmem⟩ := h.ordered
  have hlen : order.length ≤ structs.length := h.length_eq ▸ hord.length_le hmem
  have hmem' : ∀ (i : Nat) (d : StructDef), structs[i]? = some d → d.fixed = true → i ∈ order := fun i d hd hfixed =>
    (hmem i).1 ((h.fixedAt_eq hd).trans hfixed)
  refine ⟨rankIn order, fun i d hd hfixed => Nat.lt_of_lt_of_le (rankIn_lt (hmem' i d hd hfixed)) hlen, ?_⟩
  intro i d hd hfixed f hf hkind j inner hj hinner hinnerFixed
  obtain ⟨s, hs, hu⟩ := h.unplaced hd
  obtain ⟨k, hk⟩ := List.mem_iff_getElem?.1 hf
  obtain ⟨g, hg, hfg⟩ := StructDef.field_of_unplaced hu hk
  have htype : f.type = g.type := by rw [FieldDef.of_unplaced hfg]
  have hpart : j ∈ fixedParts declared s := by
    refine List.mem_filter.2 ⟨List.mem_filterMap.2 ⟨g, List.mem_of_getElem? hg, ?_⟩, ?_⟩
    · rw [← htype, if_pos hkind, hj]
    · rw [h.fixedAt_eq hinner, hinnerFixed]
  exact hord.rankIn_lt hs hpart (hmem' i d hd hfixed)

end Layout

end FlatSchema

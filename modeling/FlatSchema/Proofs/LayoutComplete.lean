import FlatSchema.Proofs.Placement

/-!
# Every layout is found

A schema that is laid out is one that lays itself out again (`Placed`). Here is the converse: if there is such a schema, laying out
the declarations gives it (`placeAll_eq_ok`). So a layout does not depend on the order in which the structs are taken. The structs
inside a struct have a lower rank, which bounds the depth of the search and keeps it from finding a struct on its own path.
-/

namespace FlatSchema.Layout

variable {declared structs : List StructDef} {order : List Nat}

theorem footprint_eq_none {structs : List StructDef} {i : Nat} (h : fixedAt structs i = false) : footprint structs i = none := by
  unfold footprint
  cases hs : structs[i]? with
  | none => rfl
  | some s =>
    rw [fixedAt_of_getElem? hs] at h
    simp [h]

theorem Placed.fixedAt_structs (h : Placed declared structs) (i : Nat) : fixedAt structs i = fixedAt declared i := by
  cases hd : structs[i]? with
  | some d => rw [h.fixedAt_eq hd, fixedAt_of_getElem? hd]
  | none =>
    have hnone : declared[i]? = none := by
      rw [List.getElem?_eq_none_iff] at hd ⊢
      exact h.length_eq ▸ hd
    rw [fixedAt, fixedAt, hd, hnone]

/-- Two layouts of the same declarations show the same of a table, and of a fixed struct that is the same in both. -/
theorem Sound.footprint_eq {p : Progress} {k : Nat} (hs : Sound declared p) (hp : Placed declared structs)
    (hsame : fixedAt declared k = true → p.structs[k]? = structs[k]?) : footprint p.structs k = footprint structs k := by
  cases hfixed : fixedAt declared k with
  | true => rw [footprint, footprint, hsame hfixed]
  | false => rw [footprint_eq_none ((hs.fixed_eq k).trans hfixed), footprint_eq_none ((hp.fixedAt_structs k).trans hfixed)]

/-- What is placed in a layout that is under way is what stands in the result. -/
theorem Sound.agrees {p : Progress} (hs : Sound declared p) (hp : Placed declared structs) (hord : Ordered declared order)
    (hmem : ∀ i, fixedAt declared i = true ↔ i ∈ order) :
    ∀ (n : Nat), ∀ j ∈ p.done, rankIn order j < n → p.structs[j]? = structs[j]?
  | 0, _, _, hn => absurd hn (Nat.not_lt_zero _)
  | n + 1, j, hj, hn => by
    obtain ⟨s, d, hdecl, hsf, hd, hplaced⟩ := hs.placed j hj
    obtain ⟨d', hd', hplaced'⟩ := hp.fixed j s hdecl hsf
    have hjorder : j ∈ order := (hmem j).1 ((fixedAt_of_getElem? hdecl).trans hsf)
    have hsee : ∀ k ∈ parts s, footprint p.structs k = footprint structs k := by
      intro k hk
      refine hs.footprint_eq hp fun hfixed => ?_
      have hpart : k ∈ fixedParts declared s := List.mem_filter.2 ⟨hk, hfixed⟩
      have hrank := hord.rankIn_lt hdecl hpart hjorder
      exact hs.agrees hp hord hmem n k (hs.ordered.parts_mem hdecl hj k hpart) (by omega)
    rw [placeStruct_congr hsee, hplaced'] at hplaced
    cases hplaced
    rw [hd, hd']

/-- Layouts of declarations that agree on the fixed structs agree on them: no struct sees into a table. The induction is on the rank
of a struct, which is above the ranks of the structs inside it. -/
theorem Placed.fixed_agree {declared' structs' : List StructDef} (h : Placed declared structs) (h' : Placed declared' structs')
    (hkind : ∀ i, fixedAt declared' i = fixedAt declared i)
    (hsame : ∀ i, fixedAt declared i = true → declared'[i]? = declared[i]?) :
    ∀ i, fixedAt declared i = true → structs'[i]? = structs[i]? := by
  obtain ⟨order, hord, hmem⟩ := h.ordered
  -- the induction is on the rank: parts are of lower rank, and have their layout from the hypothesis
  have key : ∀ n i, fixedAt declared i = true → rankIn order i < n → structs'[i]? = structs[i]? := by
    intro n
    induction n with
    | zero => exact fun i _ hn => absurd hn (Nat.not_lt_zero _)
    | succ n ih =>
      intro i hi hn
      obtain ⟨s, hs, hsf⟩ := getElem?_of_fixedAt hi
      obtain ⟨d, hd, hplaced⟩ := h.fixed i s hs hsf
      obtain ⟨d', hd', hplaced'⟩ := h'.fixed i s ((hsame i hi).trans hs) hsf
      have hsee : ∀ k ∈ parts s, footprint structs' k = footprint structs k := by
        intro k hk
        cases hfixed : fixedAt declared k with
        | true =>
          have hrank := hord.rankIn_lt hs (List.mem_filter.2 ⟨hk, hfixed⟩) ((hmem i).1 hi)
          rw [footprint, footprint, ih k hfixed (by omega)]
        | false =>
          rw [footprint_eq_none ((h'.fixedAt_structs k).trans ((hkind k).trans hfixed)),
            footprint_eq_none ((h.fixedAt_structs k).trans hfixed)]
      rw [placeStruct_congr hsee, hplaced] at hplaced'
      cases hplaced'
      rw [hd, hd']
  exact fun i hi => key _ i hi (Nat.lt_succ_self _)

/-- Declarations have at most one layout. -/
theorem Placed.unique {structs' : List StructDef} (h : Placed declared structs) (h' : Placed declared structs') :
    structs = structs' := by
  apply List.ext_getElem?
  intro i
  by_cases hlt : i < declared.length
  · have hdecl := List.getElem?_eq_getElem hlt
    cases hfixed : declared[i].fixed with
    | true => exact h'.fixed_agree h (fun _ => rfl) (fun _ _ => rfl) i ((fixedAt_of_getElem? hdecl).trans hfixed)
    | false =>
      obtain ⟨fields, hfields, hget⟩ := h.table i _ hdecl hfixed
      obtain ⟨fields', hfields', hget'⟩ := h'.table i _ hdecl hfixed
      rw [hfields] at hfields'
      cases hfields'
      rw [hget, hget']
  · have hle := Nat.le_of_not_lt hlt
    rw [List.getElem?_eq_none (h.length_eq ▸ hle), List.getElem?_eq_none (h'.length_eq ▸ hle)]

/-- Laying out several structs one after the other gives a result, if laying out each of them does. -/
theorem foldlM_returns {place : Progress → Nat → Except LoadError Progress} {path is : List Nat}
    (hrun : ∀ p i q, place p i = .ok q → fixedAt p.structs i = true → Run placeStruct path p q ∧ i ∈ q.done)
    (hplace : ∀ i ∈ is, ∀ p, Sound declared p → Returns (place p i)) (hfixed : ∀ i ∈ is, fixedAt declared i = true) :
    ∀ {p : Progress}, Sound declared p → Returns (is.foldlM place p) := by
  induction is with
  | nil => exact fun _ => .pure _
  | cons i is ih =>
    intro p hp
    rw [List.foldlM_cons]
    refine (hplace i List.mem_cons_self p hp).bind fun q hq => ?_
    have hq' := (hrun p i q hq ((hp.fixed_eq i).trans (hfixed i List.mem_cons_self))).1.sound hp
    exact ih (fun j hj => hplace j (List.mem_cons_of_mem _ hj)) (fun j hj => hfixed j (List.mem_cons_of_mem _ hj)) hq'

/-- A fixed struct is laid out, if the depth allows for its rank and the structs around it have a greater one. -/
theorem placeFixed_returns (hplaced : Placed declared structs) (hord : Ordered declared order)
    (hmem : ∀ i, fixedAt declared i = true ↔ i ∈ order) :
    ∀ (fuel : Nat) (path : List Nat) (i : Nat), fixedAt declared i = true → rankIn order i < fuel →
      (∀ k ∈ path, rankIn order i < rankIn order k) → ∀ p, Sound declared p → Returns (placeFixed placeStruct fuel path p i)
  | 0, _, _, _, hfuel, _, _, _ => absurd hfuel (Nat.not_lt_zero _)
  | fuel + 1, path, i, hi, hfuel, hpath, p, hp => by
    rw [placeFixed]
    refine .ite (fun _ => .ok p) fun hnew => ?_
    have hnew : i ∉ p.done := fun hm => hnew (List.contains_iff_mem.2 hm)
    have hoff : ¬path.contains i = true := fun hm => Nat.lt_irrefl _ (hpath i (List.contains_iff_mem.1 hm))
    rw [if_neg hoff]
    obtain ⟨s, hdecl, hsf⟩ := getElem?_of_fixedAt hi
    have hs : p.structs[i]? = some s := (hp.pending i hi hnew).trans hdecl
    have hranks : ∀ j ∈ fixedParts declared s, rankIn order j < rankIn order i :=
      fun j hj => hord.rankIn_lt hdecl hj ((hmem i).1 hi)
    have hparts : Returns ((fixedParts p.structs s).foldlM (placeFixed placeStruct fuel (path ++ [i])) p) := by
      rw [fixedParts_congr hp.fixed_eq]
      refine foldlM_returns (placeFixed_run placeStruct_keeps fuel (path ++ [i])) (fun j hj => ?_) (fun j hj => (List.mem_filter.1 hj).2) hp
      have hrank := hranks j hj
      refine placeFixed_returns hplaced hord hmem fuel _ j (List.mem_filter.1 hj).2 (by omega) fun k hk => ?_
      rcases List.mem_append.1 hk with hk | hk
      · exact Nat.lt_trans hrank (hpath k hk)
      · exact List.mem_singleton.1 hk ▸ hrank
    simp only [hs]
    refine hparts.bind fun q hq => ?_
    -- the parts are placed as in the result, so the struct is laid out as there
    obtain ⟨hrun, hdone⟩ := foldlM_run placeStruct_keeps (placeFixed_run placeStruct_keeps fuel (path ++ [i])) (fixedParts p.structs s) p q hq
      fun j hj => (List.mem_filter.1 hj).2
    rw [fixedParts_congr hp.fixed_eq] at hdone
    have hq' := hrun.sound hp
    have hsee : ∀ k ∈ parts s, footprint q.structs k = footprint structs k := by
      intro k hk
      refine hq'.footprint_eq hplaced fun hfixed => ?_
      exact hq'.agrees hplaced hord hmem _ k (hdone k (List.mem_filter.2 ⟨hk, hfixed⟩)) (Nat.lt_succ_self _)
    obtain ⟨d, _, hd⟩ := hplaced.fixed i s hdecl hsf
    exact .map ⟨d, (placeStruct_congr hsee).trans hd⟩

/-- One turn of the layout gives a result. -/
theorem place_returns (hplaced : Placed declared structs) {p : Progress} {i : Nat} (hi : i < declared.length)
    (hp : Sound declared p) (ht : TableAt declared i p.structs) : Returns (place placeStruct p i) := by
  obtain ⟨order, hord, hmem⟩ := hplaced.ordered
  obtain ⟨s, hs⟩ : ∃ s, p.structs[i]? = some s := ⟨_, List.getElem?_eq_getElem (hp.length_eq ▸ hi)⟩
  have hfix : fixedAt declared i = s.fixed := (hp.fixed_eq i).symm.trans (fixedAt_of_getElem? hs)
  unfold place
  simp only [hs]
  refine .ite (fun hsf => ?_) fun hsf => ?_
  · have hi' : i ∈ order := (hmem i).1 (hfix.trans hsf)
    have hdepth : rankIn order i < p.structs.length + 1 := by
      have hlen := hord.length_le hmem
      have hrank := rankIn_lt hi'
      have := hp.length_eq
      omega
    exact placeFixed_returns hplaced hord hmem _ [] i (hfix.trans hsf) hdepth (fun k hk => absurd hk List.not_mem_nil) p hp
  · have hdecl := List.getElem?_eq_getElem hi
    have hdf : declared[i].fixed = false :=
      (fixedAt_of_getElem? hdecl).symm.trans (hfix.trans (Bool.eq_false_iff.2 hsf))
    obtain ⟨fields, hfields, _⟩ := hplaced.table i _ hdecl hdf
    have hsame : some s = some declared[i] := hs.symm.trans ((ht i _ hdecl hdf).1 (Nat.le_refl i))
    rw [Option.some.inj hsame]
    exact .map ⟨fields, hfields⟩

/-- Laying out a schema gives the one result there can be. -/
theorem placeAll_eq_ok : placeAll declared = .ok structs ↔ Placed declared structs := by
  refine ⟨placeAll_placed, fun hplaced => ?_⟩
  obtain ⟨p, hp, _⟩ := Returns.foldlM_range (n := declared.length) (f := place placeStruct)
    (P := fun k p => Sound declared p ∧ TableAt declared k p.structs) ⟨Sound.start declared, TableAt.start declared⟩
    fun k hk p hinv => by
      obtain ⟨q, hq⟩ := place_returns hplaced hk hinv.1 hinv.2
      exact ⟨q, hq, place_sound hk hq hinv.1 hinv.2⟩
  have hall : placeAll declared = .ok p.structs := bind_eq_ok.2 ⟨p, hp, rfl⟩
  rw [hall, (placeAll_placed hall).unique hplaced]

end FlatSchema.Layout

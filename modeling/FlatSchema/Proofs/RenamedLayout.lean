import FlatSchema.Proofs.LayoutComplete
import FlatSchema.Proofs.Renaming
import Mathlib.Data.List.Basic

/-!
# Layout at other places

The layout of a struct sees other structs only along references, so that of a renamed struct beside the structs at their new
places is the renamed layout (`placeStruct_rename`). A layout of a list of structs is therefore, at the new places, one of the list
in another order (`Placed.moved`). As the layout that exists is the one that is found, laying out does not depend on the order.
-/

namespace FlatSchema.Layout

variable {r : Renaming} {structs structs' : List StructDef}

/-! ## One struct -/

/-- The footprint of a struct is found at its new place. -/
theorem footprint_moved (h : Moved r.struct (StructDef.rename r) structs structs') (i : Nat) :
    footprint structs' (r.struct i) = footprint structs i := by
  rw [footprint, footprint, h i]
  cases structs[i]? <;> rfl

/-- A struct is fixed at its new place if it is at the old one. -/
theorem fixedAt_moved (h : Moved r.struct (StructDef.rename r) structs structs') (i : Nat) :
    fixedAt structs' (r.struct i) = fixedAt structs i := by
  rw [fixedAt, fixedAt, h i, Option.map_map]
  rfl

/-- A renamed type sees what the type saw. -/
theorem sight_moved (h : Moved r.struct (StructDef.rename r) structs structs') (t : TypeDesc) :
    (t.rename r).structRef.bind (footprint structs') = t.structRef.bind (footprint structs) := by
  rw [TypeDesc.rename_structRef]
  cases t.structRef with
  | none => rfl
  | some i => exact footprint_moved h i

/-- A renamed type takes the same room. -/
theorem inlineSize_rename (h : Moved r.struct (StructDef.rename r) structs structs') (t : TypeDesc) :
    inlineSize structs' (t.rename r) = inlineSize structs t := by
  simp only [inlineSize, TypeDesc.rename_isArray, TypeDesc.rename_element, TypeDesc.rename_length, TypeDesc.rename_elementType,
    flat_eq, TypeDesc.rename_base, sight_moved h]

/-- A renamed type asks for the same alignment. -/
theorem inlineAlignment_rename (h : Moved r.struct (StructDef.rename r) structs structs') (t : TypeDesc) :
    inlineAlignment structs' (t.rename r) = inlineAlignment structs t := by
  simp only [inlineAlignment, TypeDesc.rename_isArray, TypeDesc.rename_element, TypeDesc.rename_elementType, flat_eq,
    TypeDesc.rename_base, sight_moved h]

/-- Renamed fields are placed alike. -/
theorem placeFields_rename (h : Moved r.struct (StructDef.rename r) structs structs') (owner : String) :
    ∀ (position : Nat) (fields : List FieldDef),
      placeFields structs' owner position (fields.map (FieldDef.rename r)) =
        Prod.map (List.map (FieldDef.rename r)) id <$> placeFields structs owner position fields
  | _, [] => rfl
  | position, f :: rest => by
    have ih := fun position => placeFields_rename h owner position rest
    have hf : inlineSize structs' (f.rename r).type = inlineSize structs f.type := inlineSize_rename h f.type
    cases rest with
    | nil =>
      rw [List.map_cons, List.map_nil, placeFields, placeFields, hf]
      split <;> rfl
    | cons g rest =>
      have hg : inlineAlignment structs' (g.rename r).type = inlineAlignment structs g.type := inlineAlignment_rename h g.type
      rw [List.map_cons] at ih
      rw [List.map_cons, List.map_cons, placeFields, placeFields]
      simp only [hf, hg, ih, apply_ite (Prod.map (List.map (FieldDef.rename r)) id <$> ·), map_bind, map_pure, bind_map_left]
      rfl

/-- Renamed fields ask for the same alignment. -/
theorem naturalAlignment_rename (h : Moved r.struct (StructDef.rename r) structs structs') (fields : List FieldDef) :
    naturalAlignment structs' (fields.map (FieldDef.rename r)) = naturalAlignment structs fields := by
  unfold naturalAlignment
  rw [List.foldl_map]
  have hstep : (fun a f => max a (inlineAlignment structs' (FieldDef.rename r f).type)) =
      fun a (f : FieldDef) => max a (inlineAlignment structs f.type) := by
    funext a f
    exact congrArg (max a) (inlineAlignment_rename h f.type)
  rw [hstep]

/-- Padding has nothing to do with types. -/
theorem padLast_rename (padding : Nat) : ∀ fields : List FieldDef,
    padLast padding (fields.map (FieldDef.rename r)) = (padLast padding fields).map (FieldDef.rename r)
  | [] => rfl
  | [_] => rfl
  | f :: g :: rest => by
    have ih := padLast_rename padding (g :: rest)
    rw [List.map_cons] at ih
    rw [List.map_cons, List.map_cons, padLast, padLast, ih, List.map_cons]

/-- The layout of a renamed struct is the renamed layout. -/
theorem placeStruct_rename (h : Moved r.struct (StructDef.rename r) structs structs') (d : StructDef) :
    placeStruct structs' (d.rename r) = StructDef.rename r <$> placeStruct structs d := by
  have halign : ∀ natural, alignment (d.rename r) natural = alignment d natural := by
    intro natural
    simp only [alignment, StructDef.rename]
  unfold placeStruct
  rw [StructDef.rename_fields, placeFields_rename h, naturalAlignment_rename h]
  simp only [halign, bind_map_left, map_bind, map_pure, Prod.map_fst, Prod.map_snd, id_eq, padLast_rename]
  rfl

/-- Renamed fields get the same slots. -/
theorem placeSlots_rename (table : String) : ∀ (slot : Nat) (fields : List FieldDef),
    placeSlots table slot (fields.map (FieldDef.rename r)) = List.map (FieldDef.rename r) <$> placeSlots table slot fields
  | _, [] => rfl
  | slot, f :: rest => by
    rw [List.map_cons, placeSlots, placeSlots]
    simp only [placeSlots_rename table, apply_ite (List.map (FieldDef.rename r) <$> ·), map_bind, map_pure, bind_map_left]
    rfl

/-! ## All structs -/

/-- The parts of a struct are renamed. -/
theorem parts_rename (d : StructDef) : parts (d.rename r) = (parts d).map r.struct := by
  unfold parts
  rw [StructDef.rename_fields, List.filterMap_map, List.map_filterMap]
  refine congrArg (List.filterMap · d.fields) (funext fun f => ?_)
  show (if f.type.isStruct || f.type.isArray then f.type.structRef.map r.struct else none) = Option.map r.struct _
  split <;> rfl

variable {declared declared' : List StructDef}

/-- The fixed parts of a struct are renamed. -/
theorem fixedParts_rename (h : Moved r.struct (StructDef.rename r) declared declared') (d : StructDef) :
    fixedParts declared' (d.rename r) = (fixedParts declared d).map r.struct := by
  unfold fixedParts
  rw [parts_rename, List.filter_map]
  exact congrArg (fun P => List.map r.struct ((parts d).filter P)) (funext fun i => fixedAt_moved h i)

/-- An order in which structs are placed after their parts is renamed to one of the other list. -/
theorem Ordered.moved (h : Moved r.struct (StructDef.rename r) declared declared') :
    ∀ {order : List Nat}, Ordered declared order → Ordered declared' (order.map r.struct)
  | [], _ => trivial
  | i :: rest, hord => by
    obtain ⟨hnew, hparts, hrest⟩ := hord
    refine ⟨mt (List.mem_map_of_injective r.struct.injective).1 hnew, fun d' hd' => ?_, hrest.moved h⟩
    rw [h i] at hd'
    obtain ⟨d, hd, rfl⟩ := Option.map_eq_some_iff.1 hd'
    rw [fixedParts_rename h]
    intro j hj
    obtain ⟨k, hk, rfl⟩ := List.mem_map.1 hj
    exact List.mem_map_of_mem (hparts d hd k hk)

/-- The structs of a list at the new places that another list of the same length has. -/
theorem exists_moved (h : Moved r.struct (StructDef.rename r) declared declared') (hlen : structs.length = declared.length) :
    ∃ structs', Moved r.struct (StructDef.rename r) structs structs' := by
  refine ⟨declared'.mapIdx fun j d => (structs[r.struct.symm j]?.map (StructDef.rename r)).getD d, fun i => ?_⟩
  rw [List.getElem?_mapIdx, h i, Equiv.symm_apply_apply]
  by_cases hi : i < declared.length
  · rw [List.getElem?_eq_getElem hi, List.getElem?_eq_getElem (hlen ▸ hi)]
    rfl
  · rw [List.getElem?_eq_none (by omega), List.getElem?_eq_none (by omega)]
    rfl

/-- A layout at the new places is a layout of the list in another order. -/
theorem Placed.moved (h : Moved r.struct (StructDef.rename r) declared declared')
    (hs : Moved r.struct (StructDef.rename r) structs structs') (hplaced : Placed declared structs) :
    Placed declared' structs' := by
  obtain ⟨order, hord, hmem⟩ := hplaced.ordered
  -- what is at the place `j` has come from some place `i`
  refine ⟨?_, fun j d' hd' hfixed => ?_, fun j d' hd' hfixed => ?_, order.map r.struct, hord.moved h, fun j => ?_⟩
  · rw [hs.length_eq, h.length_eq, hplaced.length_eq]
  · obtain ⟨i, rfl⟩ := r.struct.surjective j
    rw [h i] at hd'
    obtain ⟨s, hs', rfl⟩ := Option.map_eq_some_iff.1 hd'
    obtain ⟨d, hd, hplace⟩ := hplaced.fixed i s hs' hfixed
    refine ⟨d.rename r, ?_, ?_⟩
    · rw [hs i, hd, Option.map_some]
    · rw [placeStruct_rename hs, hplace]
      rfl
  · obtain ⟨i, rfl⟩ := r.struct.surjective j
    rw [h i] at hd'
    obtain ⟨s, hs', rfl⟩ := Option.map_eq_some_iff.1 hd'
    obtain ⟨fields, hslots, hd⟩ := hplaced.table i s hs' hfixed
    refine ⟨fields.map (FieldDef.rename r), ?_, ?_⟩
    · rw [StructDef.rename_fields, placeSlots_rename,
        show (s.rename r).name = s.name from rfl, hslots]
      rfl
    · rw [hs i, hd, Option.map_some]
      rfl
  · obtain ⟨i, rfl⟩ := r.struct.surjective j
    rw [fixedAt_moved h, hmem, List.mem_map_of_injective r.struct.injective]

/-- Structs in another order have the same layout. -/
theorem placeAll_moved (h : Moved r.struct (StructDef.rename r) declared declared') (hplace : placeAll declared = .ok structs) :
    ∃ structs', placeAll declared' = .ok structs' ∧ Moved r.struct (StructDef.rename r) structs structs' := by
  have hplaced := placeAll_placed hplace
  obtain ⟨structs', hs⟩ := exists_moved h hplaced.length_eq
  exact ⟨structs', placeAll_eq_ok.2 (hplaced.moved h hs), hs⟩

end FlatSchema.Layout

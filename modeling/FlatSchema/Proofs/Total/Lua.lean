import FlatSchema.Proofs.Lookups
import FlatSchema.Target.LuaModule

/-!
# Lua code is always given

For a closed schema every generator of Lua gives a result. Only accessors follow references: builders and enums give their code
without a look-up that can fail.
-/

namespace FlatSchema.Lua

variable {env : Env} {t : TypeDesc} {d : StructDef} {f : FieldDef} {owner : Nat}

/-- The name of a type without layers is known, if its definition is found. -/
theorem returns_atomName (h : t.Found env.schema) : Returns (atomName env t) := by
  unfold atomName
  split
  next => exact .ok _
  next hb => exact (Env.returns_structOf h hb).map
  next => exact .ok _
  next => exact .ite (fun he => (Env.returns_enumOf h he).map) fun _ => .ok _

/-- The local name of the module of a struct is known. -/
theorem returns_localName (h : t.Found env.schema) (hb : t.base = .struct) : Returns (localName env owner t) := by
  unfold localName
  refine (Env.returns_structOf h hb).bind fun d _ => ?_
  exact .ite (fun _ => .pure _) fun _ => .pure _

/-- The accessor of a field of a struct is given. -/
theorem returns_structAccessor (h : f.type.Layered env.schema) : Returns (structAccessor env owner f) := by
  unfold structAccessor
  refine .ite (fun _ => .pure _) fun _ => .ite (fun ha => ?_) fun _ => .pure _
  refine .ite (fun hb => ?_) fun _ => .pure _
  have helement := h.arrayElement ha
  exact (returns_localName helement.toFound (TypeDesc.isStruct_iff.1 hb)).bind fun _ _ => .pure _

/-- What reads an element of a vector is given. -/
theorem returns_elementBody (h : f.type.elementType.Found env.schema) : Returns (elementBody env owner f) := by
  unfold elementBody
  dsimp only
  split
  next hb =>
    refine (Env.returns_structOf h hb).bind fun d _ => ?_
    exact (returns_localName h hb).map
  next => exact .pure _
  next => exact .pure _

/-- The accessors of a field of a table are given. -/
theorem returns_tableAccessor (h : f.type.Layered env.schema) : Returns (tableAccessor env owner f) := by
  unfold tableAccessor
  refine .ite (fun _ => .pure _) fun _ => ?_
  split
  next => exact .pure _
  next hb =>
    refine (Env.returns_structOf h.found hb).bind fun d _ => ?_
    exact (returns_localName h.found hb).map
  next => exact .pure _
  next hv =>
    have helement := h.vectorElement (TypeDesc.isVector_iff.2 hv)
    unfold vectorAccessors
    exact (returns_elementBody helement.toFound).map
  next => exact .pure _

/-- A module is given if the accessors of all fields are. -/
theorem returns_objectCode (hs : env.schema.Closed) (hd : d ∈ env.schema.structs) {accessor : FieldDef → Except GenError Code}
    (haccess : ∀ f : FieldDef, f.type.Layered env.schema → Returns (accessor f)) {builders : Code} :
    Returns (objectCode env owner d accessor builders) := by
  unfold objectCode
  refine .map (.mapM fun f hf => ?_)
  exact (haccess f (hs.field d hd f (StructDef.mem_of_mem_liveFields hf))).map

/-- The code of every definition of a closed schema is given. -/
theorem returns_define (o : Options) (hs : env.schema.Closed) (state : FileState) {x : Definition} (hx : x.Within env.schema) :
    Returns ((target o).define env state x) := by
  cases x with
  | enum _ e => exact .ok _
  | struct i d =>
    refine .ite (fun _ => ?_) fun _ => ?_
    · exact returns_objectCode hs hx fun _ h => returns_structAccessor h
    · exact returns_objectCode hs hx fun _ h => returns_tableAccessor h

end FlatSchema.Lua

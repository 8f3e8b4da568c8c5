import FlatSchema.Proofs.Lookups
import FlatSchema.Target.JsonSchemaDoc

/-!
# A JSON Schema is always given

For a closed schema every generator of JSON Schema gives a result. The schema of a union lists those of its payloads; that no
payload is a union again ends the descent.
-/

namespace FlatSchema.JsonSchema

variable {env : Env} {t : TypeDesc} {d : StructDef} {union : TypeDesc → Except GenError Json}

/-- A type without layers has a schema, if its definition is found and unions have one. -/
theorem returns_atomSchema (h : t.Found env.schema) (hunion : t.base = .union → Returns (union t)) :
    Returns (atomSchema env union t) := by
  unfold atomSchema
  split
  next => exact .ok _
  next =>
    split
    next => exact .ok _
    next => exact .ok _
    next => exact .ok _
    next => exact .ok _
    next hb => exact (Env.returns_structOf h hb).map
    next hb => exact hunion hb
    next => split <;> exact .ok _

/-- The payload of a variant has a schema: it is a string or a table that is found. -/
theorem returns_payloadSchema (hs : env.schema.Closed) {e : EnumDef} (he : e ∈ env.schema.enums) (hu : e.isUnion = true)
    {v : EnumVal} (hv : v ∈ e.variants) : Returns (payloadSchema env v.payload) := by
  have hmem := EnumDef.mem_of_mem_variants hv
  have hbase : v.payload.innermost.base ≠ .union := by
    have hcontainer := (hs.payload e he v hmem).2
    unfold TypeDesc.innermost
    rw [hcontainer]
    rcases hs.variant e he hu v hv with hstring | htable
    · rw [if_neg Bool.false_ne_true, beq_iff_eq.1 hstring]
      exact nofun
    · rw [if_neg Bool.false_ne_true, (Schema.isTable_spec htable).1]
      exact nofun
  unfold payloadSchema schemaWith
  exact (returns_atomSchema (hs.found_innermost (.payload he hmem)) fun hb => absurd hb hbase).map

/-- Every type has a schema, if the definition below its layers is found. -/
theorem returns_typeSchema (hs : env.schema.Closed) (h : t.innermost.Found env.schema) : Returns (typeSchema env t) := by
  unfold typeSchema schemaWith
  refine .map (returns_atomSchema h fun hb => ?_)
  refine (Env.returns_unionOf h hb).bind fun e henum => ?_
  obtain ⟨he, hu⟩ := Env.union_of_enumOf h hb henum
  exact .map (.mapM fun v hv => returns_payloadSchema hs he hu hv)

/-- The schema of every definition of a closed schema is given. -/
theorem returns_define (o : Options) (hs : env.schema.Closed) (state : FileState) {x : Definition} (hx : x.Within env.schema) :
    Returns ((target o).define env state x) := by
  cases x with
  | enum _ e => exact .ok _
  | struct i d =>
    have hentry : Returns (objectEntry env state d) := by
      refine .map (.map (.mapM fun f hf => ?_))
      unfold fieldSchema
      refine .map ?_
      exact (returns_typeSchema hs (hs.field d hx f hf).innermost.toFound).map
    exact .ite (fun _ => hentry) fun _ => hentry

end FlatSchema.JsonSchema

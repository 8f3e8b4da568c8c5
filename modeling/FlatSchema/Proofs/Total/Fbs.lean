import FlatSchema.Proofs.Lookups
import FlatSchema.Target.FbsText

/-!
# The text of a schema is always given

For a closed schema every generator of the schema language gives a result.
-/

namespace FlatSchema.Fbs

variable {env : Env} {t : TypeDesc} {d : StructDef} {e : EnumDef} {f : FieldDef} {here : Namespace}

/-- The text of a type without layers is known, if its definition is found. -/
theorem returns_atomText (h : t.Found env.schema) : Returns (atomText env here t) := by
  unfold atomText
  split
  next => exact .ok _
  next hb => exact (Env.returns_structOf h hb).map
  next =>
    refine .ite (fun hb => ?_) fun _ => .ok _
    rw [Bool.or_eq_true, decide_eq_true_eq] at hb
    rcases hb with hb | hb
    · exact (Env.returns_unionOf h hb).map
    · exact (Env.returns_enumOf h hb).map

/-- The text of a type is known, if the definition below its layers is found. -/
theorem returns_typeText (h : t.innermost.Found env.schema) : Returns (typeText env here t) := (returns_atomText h).map

/-- The attributes of a field are known, if the table nested in it is found. -/
theorem returns_fieldAttributes (hnested : ∀ i, f.nested = some i → i < env.schema.structs.length) :
    Returns (fieldAttributes env here f) := by
  unfold fieldAttributes
  split
  next i hi => exact (Env.returns_structAt (hnested i hi)).bind fun _ _ => .pure _
  next => exact .pure _

/-- The default of a field is known: the enum that it takes its value from is found. -/
theorem returns_default? (h : f.type.Found env.schema) : Returns (default? env f) := by
  unfold default?
  refine .ite (fun _ => .pure _) fun _ => .ite (fun _ => .pure _) fun _ => ?_
  refine .ite (fun hb => ?_) fun _ => .pure _
  refine (Env.returns_enumOf h hb).bind fun e _ => ?_
  split
  next => exact .pure _
  next => exact .pure _

/-- The declaration of a struct or table is given. -/
theorem returns_objectCode (hs : env.schema.Closed) (hd : d ∈ env.schema.structs) {word : String} :
    Returns (objectCode word env d) := by
  unfold objectCode
  refine .map (.mapM fun f hf => ?_)
  have hmem := (List.mem_filter.1 hf).1
  have hfield := hs.field d hd f hmem
  unfold fieldCode
  refine (returns_typeText hfield.innermost.toFound).bind fun type _ => ?_
  refine (returns_default? hfield.found).bind fun initial _ => ?_
  exact (returns_fieldAttributes (hs.nested d hd f hmem)).map

/-- The declaration of an enum or union is given. -/
theorem returns_enumCode (hs : env.schema.Closed) (he : e ∈ env.schema.enums) : Returns (enumCode env e) := by
  unfold enumCode
  refine .ite (fun _ => .map (.mapM fun v hv => ?_)) fun _ => .pure _
  have hpayload := (hs.payload e he v (EnumDef.mem_of_mem_variants hv)).1
  unfold variantCode
  refine .ite (fun hb => ?_) fun _ => .pure _
  exact (Env.returns_structOf hpayload (TypeDesc.isStruct_iff.1 hb)).bind fun _ _ => .pure _

/-- The text of every definition of a closed schema is given. -/
theorem returns_define (o : Options) (hs : env.schema.Closed) (state : FileState) {x : Definition} (hx : x.Within env.schema) :
    Returns ((target o).define env state x) := by
  cases x with
  | enum _ e => exact (returns_enumCode hs hx).map
  | struct i d => exact .ite (fun _ => (returns_objectCode hs hx).map) fun _ => (returns_objectCode hs hx).map

end FlatSchema.Fbs

import FlatSchema.Proofs.CodeShape
import FlatSchema.Proofs.NameChars
import FlatSchema.Target.LuaModule

/-!
# The shape of Lua modules

The code of every Lua generator is balanced, and the last line of a module returns its table.
-/

namespace FlatSchema.Lua

open Code

variable {env : Env} {i : Nat} {d : StructDef} {f : FieldDef} {e : EnumDef} {name place : String} {body : Code}

/-! ## Readers -/

instance even_docs {doc : List String} : Even (docs doc) := by
  unfold docs
  infer_instance

instance even_function {head : Phrase} [Even body] : Even (function head body) := by
  unfold function
  infer_instance

instance even_ifPresent [Even body] : Even (ifPresent f body) := by
  unfold ifPresent
  infer_instance

instance even_returnObject {module : Phrase} : Even (returnObject module place) := by
  unfold returnObject
  infer_instance

instance even_constructors : Even (constructors env i d) := by
  unfold constructors
  infer_instance

instance even_structAccessor : Yields Step.Any (structAccessor env i f) := by
  unfold structAccessor
  dsimp only
  infer_instance

instance even_elementBody : Yields Step.Any (elementBody env i f) := by
  unfold elementBody
  dsimp only
  split <;> infer_instance

instance even_vectorAccessors : Yields Step.Any (vectorAccessors env i f) := by
  unfold vectorAccessors
  infer_instance

instance even_tableAccessor : Yields Step.Any (tableAccessor env i f) := by
  unfold tableAccessor
  dsimp only
  split
  · infer_instance
  · split <;> infer_instance

/-! ## Builders -/

instance even_loopEnd : Even (spelling env).loopEnd := by
  unfold spelling
  infer_instance

instance even_structBuilder : Even (structBuilder env d) := by
  unfold structBuilder
  infer_instance

instance even_addFunctions : Even (addFunctions env name f) := by
  unfold addFunctions
  infer_instance

instance even_tableBuilders : Even (tableBuilders env d) := by
  unfold tableBuilders
  infer_instance

/-! ## Modules -/

/-- A line that returns a table is not to be continued. -/
theorem settles_return (o : Options) (h : isIdentifier name = true) : Settles (line s!"return {(namer o).typeName name}") := by
  have hname : ∀ c ∈ ((namer o).typeName name).toList, Writer.Inert c := by
    refine CharKind.mem_format (.and (.ne rfl (by decide)) (.ne rfl (by decide))) ?_ ?_ _ ?_
    · simp [namer]
    · simp [namer]
    · exact fun c hc => ⟨fun h' => not_mem_of_isIdentifier h rfl (h' ▸ hc), fun h' => not_mem_of_isIdentifier h rfl (h' ▸ hc)⟩
  exact .line (Writer.Ended.append ⟨' ', rfl, by decide⟩ hname).complete

/-- The code of an enum is whole: it ends with the name of the enum, which is an identifier. -/
theorem whole_enumCode {o : Options} (henv : env.namer = namer o) (he : isIdentifier e.name = true) : Whole (enumCode env e) where
  even := by
    unfold enumCode
    infer_instance
  settles := by
    unfold enumCode
    rw [henv]
    exact (settles_return o he).after _

/-- The module of a struct or table is whole: it ends with the line that returns it. -/
theorem whole_objectCode {o : Options} (henv : env.namer = namer o) (hd : isIdentifier d.name = true)
    {accessor : FieldDef → Except GenError Code} [∀ f, Yields Step.Any (accessor f)] {builders : Code} [Even builders] :
    Gives Whole (objectCode env i d accessor builders) := by
  unfold objectCode
  refine Whole.gives ?_
  rw [henv]
  exact .after fun _ => .ok ((settles_return o hd).after _)

/-- The code of every definition is whole: it comes back to its indentation and leaves no line open. -/
theorem whole_define {o : Options} (henv : env.namer = namer o) (state : FileState) {x : Definition}
    (hname : isIdentifier x.name = true) : Gives Whole ((target o).define env state x) := by
  cases x with
  | enum i e => exact .ok (whole_enumCode henv hname)
  | struct i d => exact .ite (whole_objectCode henv hname) (whole_objectCode henv hname)

end FlatSchema.Lua

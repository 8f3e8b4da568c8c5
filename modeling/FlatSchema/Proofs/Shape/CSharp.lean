import FlatSchema.Proofs.CodeShape
import FlatSchema.Target.CSharpNamespace

/-!
# The shape of C# namespaces

The code of every C# generator is balanced and ends with the end of a type. A component of a namespace opens with an indentation, and
takes it back when it closes.
-/

namespace FlatSchema.CSharp

open Code

set_option synthInstance.maxSize 1000

variable {env : Env} {i : Nat} {t : TypeDesc} {d : StructDef} {f : FieldDef} {e : EnumDef} {v : EnumVal} {element : BaseType}
  {name : String} {body : Code}

/-! ## Enums and fixed structs -/

instance even_docs {doc : List String} : Even (docs doc) := by
  unfold docs
  infer_instance

instance even_enumCode : Even (enumCode env e) := by
  unfold enumCode
  infer_instance

instance even_placement : Even (placement env d) := by
  unfold placement
  infer_instance

instance even_objectType [Even body] : Even (objectType env d body) := by
  unfold objectType
  infer_instance

instance even_structArray : Yields Step.Any (structArray env d f) := by
  unfold structArray
  infer_instance

instance even_structField : Yields Step.Any (structField env d f) := by
  unfold structField
  infer_instance

instance even_loopEnd : Even (spelling env).loopEnd := by
  unfold spelling
  infer_instance

instance even_structCreator : Yields Step.Any (structCreator env d) := by
  unfold structCreator
  infer_instance

instance even_structCode : Yields Step.Any (structCode env d) := by
  unfold structCode
  infer_instance

/-! ## Members of tables -/

instance even_byteSegments : Even (byteSegments name f element) := by
  unfold byteSegments
  infer_instance

instance even_variantMember : Yields Step.Any (variantMember env f name v) := by
  unfold variantMember
  infer_instance

instance even_nestedMember : Yields Step.Any (nestedMember env f name) := by
  unfold nestedMember
  split <;> infer_instance

instance even_byKeyMember : Yields Step.Any (byKeyMember env f name) := by
  unfold byKeyMember
  refine @Yields.of_ite _ _ _ _ _ _ _ (.bind inferInstance fun d _ => ?_) inferInstance
  split <;> infer_instance

instance even_vectorMembers : Yields Step.Any (vectorMembers env f name) := by
  unfold vectorMembers
  infer_instance

instance even_scalarMembers : Yields Step.Any (scalarMembers env f name) := by
  unfold scalarMembers
  infer_instance

instance even_tableMembers : Yields Step.Any (tableMembers env d f) := by
  unfold tableMembers
  dsimp only
  split
  · infer_instance
  · split <;> infer_instance

/-! ## Building tables -/

instance even_createMethod : Yields Step.Any (createMethod env d) := by
  unfold createMethod
  infer_instance

instance even_vectorBuilders : Yields Step.Any (vectorBuilders env name t) := by
  unfold vectorBuilders
  infer_instance

instance even_addMethods : Yields Step.Any (addMethods env d f) := by
  unfold addMethods
  infer_instance

instance even_builderMethods : Yields Step.Any (builderMethods env d) := by
  unfold builderMethods
  infer_instance

instance even_rootMethods : Even (rootMethods env i d) := by
  unfold rootMethods
  infer_instance

instance even_finishMethods : Even (finishMethods env d) := by
  unfold finishMethods
  infer_instance

instance even_sortedVector : Even (sortedVector env d f) := by
  unfold sortedVector
  infer_instance

instance even_lookupByKey : Yields Step.Any (lookupByKey env d f) := by
  unfold lookupByKey
  infer_instance

instance even_tableCode : Yields Step.Any (tableCode env i d) := by
  unfold tableCode
  dsimp only
  cases d.keyField? <;> infer_instance

/-! ## Definitions and namespaces -/

/-- The type of a struct or table ends with the line of its brace. -/
theorem settles_objectType (body : Code) : Settles (objectType env d body) := (Settles.block _ _ (by decide)).after _

/-- The code of an enum is whole. -/
theorem whole_enumCode : Whole (enumCode env e) := ⟨inferInstance, (Settles.block _ _ (by decide)).after _⟩

/-- The code of a fixed struct ends with a complete line. -/
theorem settles_structCode : Gives Settles (structCode env d) := by
  unfold structCode
  exact .after fun _ => .after fun _ => .ok (settles_objectType _)

/-- The code of a table ends with a complete line. -/
theorem settles_tableCode : Gives Settles (tableCode env i d) := by
  have hend : ∀ body : Code, Gives Settles (pure (objectType env d body)) := fun body => .ok (settles_objectType body)
  unfold tableCode
  dsimp only
  cases d.keyField? with
  | some key => exact .after fun _ => .ite_after fun _ => .after fun _ => .after fun _ => hend _
  | none => exact .after fun _ => .ite_after fun _ => .after fun _ => hend _

/-- The code of every definition is whole: it comes back to its indentation and leaves no line open. -/
theorem whole_define (o : Options) (state : FileState) (x : Definition) : Gives Whole ((target o).define env state x) := by
  cases x with
  | enum i e => exact .ok (whole_enumCode.after _)
  | struct i d =>
    refine .ite ?_ ?_
    · exact (Whole.gives settles_structCode).bind fun c h => .ok ((h.after _).after _)
    · exact (Whole.gives settles_tableCode).bind fun c h => .ok ((h.after _).after _)

/-- Opening a component goes one step deeper. -/
theorem level?_openScope (o : Options) (component : String) (n : Nat) :
    level? n ((target o).openScope env component) = some (n + 1) := rfl

/-- Closing it goes back. -/
theorem level?_closeScope (o : Options) (component : String) (n : Nat) :
    level? (n + 1) ((target o).closeScope env component) = some n := rfl

end FlatSchema.CSharp

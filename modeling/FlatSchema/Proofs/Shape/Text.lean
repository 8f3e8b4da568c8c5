import FlatSchema.Proofs.CodeShape
import FlatSchema.Target.FbsText
import FlatSchema.Target.JsonSchemaDoc

/-!
# The shape of schemas in the schema language and in JSON Schema

Both write a definition as balanced code. A definition of the schema language is made of lines and comments and ends with an empty
line, and one of a JSON Schema is written as it is.
-/

namespace FlatSchema

open Code

variable {env : Env} {d : StructDef} {f : FieldDef} {e : EnumDef} {v : EnumVal} {here : Namespace}

namespace Fbs

section

variable {Q : Step → Prop} [∀ p, Step.Meets Q (.line p)] [∀ mark doc, Step.Meets Q (.comment mark doc)]

instance balanced_docs {doc : List String} : Balanced Q (docs doc) := by
  unfold docs
  infer_instance

instance balanced_namespaceLine {state : FileState} : Balanced Q (namespaceLine state) := by
  unfold namespaceLine
  infer_instance

instance balanced_fieldCode : Yields Q (fieldCode env here f) := by
  unfold fieldCode
  infer_instance

instance balanced_objectCode {word : String} : Yields Q (objectCode word env d) := by
  unfold objectCode
  infer_instance

instance balanced_variantCode : Yields Q (variantCode env e v) := by
  unfold variantCode
  infer_instance

instance balanced_enumCode : Yields Q (enumCode env e) := by
  unfold enumCode
  infer_instance

end

/-- A declaration ends with an empty line, whatever stands before it. -/
theorem whole_declared (state : FileState) {code : Except GenError Code} [Yields Step.Any code] :
    Gives Whole (do return declared state (← code)) := by
  unfold declared
  exact Whole.gives (.after fun code => .ok (Settles.blank.after _))

/-- The code of every definition is whole: it comes back to its indentation and leaves no line open. -/
theorem whole_define (o : Options) (state : FileState) (x : Definition) : Gives Whole ((target o).define env state x) := by
  cases x with
  | enum i e => exact whole_declared state
  | struct i d => exact .ite (whole_declared state) (whole_declared state)

end Fbs

namespace JsonSchema

/-- An entry of the document of schemas is whole. -/
theorem whole_entry (state : FileState) (scope : Namespace) (name : String) (schema : Json) :
    Whole (entry env state scope name schema) where
  even := by
    unfold entry FileState.apart
    infer_instance
  settles := (Settles.raw _).after _

/-- The entry of every definition is whole. -/
theorem whole_define (o : Options) (state : FileState) (x : Definition) : Gives Whole ((target o).define env state x) := by
  have hobject : ∀ d, Gives Whole (objectEntry env state d) := fun d => .after fun schema => .ok (whole_entry ..)
  cases x with
  | enum i e => exact .ok (whole_entry ..)
  | struct i d => exact .ite (hobject d) (hobject d)

end JsonSchema

end FlatSchema

import FlatSchema.Proofs.CodeShape
import FlatSchema.Proofs.NameChars
import FlatSchema.Proofs.TypeText
import FlatSchema.Target.PythonModule

/-!
# The shape of Python modules

The code of every Python generator is balanced, and the last line of a definition is not to be continued. Classes end with a method;
only the class of an enum may end with the line of a member, which is why the names of members have to be identifiers.
-/

namespace FlatSchema.Python

open Code

set_option synthInstance.maxSize 1000

variable {env : Env} {i : Nat} {t : TypeDesc} {d : StructDef} {f : FieldDef} {e : EnumDef} {v : EnumVal} {p : StructParam}
  {scope : Namespace} {name symbol cls read fallback goal value list : String} {doc : List String} {body : Code}

/-! ## Names -/

instance even_importSymbol : Even (importSymbol env scope name symbol) := by
  unfold importSymbol
  infer_instance

instance even_importType : Yields Step.Any (importType env t) := by
  unfold importType
  split <;> infer_instance

instance even_importObject : Yields Step.Any (importObject env t) := by
  unfold importObject
  infer_instance

instance even_importCreator : Even (importCreator env e).1 := by
  unfold importCreator
  infer_instance

instance even_docstring : Even (docstring doc) := by
  unfold docstring
  infer_instance

instance even_docComments : Even (docComments doc) := by
  unfold docComments
  infer_instance

instance even_suite {head : Phrase} [Even body] : Even (suite head body) := by
  unfold suite
  infer_instance

instance even_gap : Even gap := by
  unfold gap
  infer_instance

instance even_returnEnum : Even (returnEnum cls read fallback) := by
  unfold returnEnum
  infer_instance

instance even_nameString : Even (nameString env d) := by
  unfold nameString
  infer_instance

/-! ## Enums and unions -/

instance even_members : Even (members env e) := by
  unfold members
  infer_instance

instance even_bounds : Even (bounds env e) := by
  unfold bounds
  split
  · infer_instance
  · split <;> infer_instance

instance even_tableEntry : Yields Step.Any (tableEntry env v) := by
  unfold tableEntry
  infer_instance

instance even_tableTypes : Yields Step.Any (tableTypes env e) := by
  unfold tableTypes
  infer_instance

instance even_enumClass : Yields Step.Any (enumClass env e) := by
  unfold enumClass
  infer_instance

instance even_payloadBranch : Yields Step.Any (payloadBranch env e v) := by
  unfold payloadBranch
  infer_instance

instance even_payloadFunction : Yields Step.Any (payloadFunction env e) := by
  unfold payloadFunction
  infer_instance

instance even_enumCode : Yields Step.Any (enumCode env e) := by
  unfold enumCode
  infer_instance

/-! ## Views -/

instance even_structScalar : Yields Step.Any (structScalar env f) := by
  unfold structScalar
  infer_instance

instance even_structArray : Yields Step.Any (structArray env f) := by
  unfold structArray
  infer_instance

instance even_structAccessor : Yields Step.Any (structAccessor env f) := by
  unfold structAccessor
  infer_instance

instance even_structMutator : Even (structMutator env f) := by
  unfold structMutator
  infer_instance

instance even_structClass : Yields Step.Any (structClass env d) := by
  unfold structClass
  infer_instance

instance even_offsetLine : Even (offsetLine env f) := by
  unfold offsetLine
  infer_instance

instance even_fieldRead : Yields Step.Any (fieldRead env f cls) := by
  unfold fieldRead
  infer_instance

instance even_plainAccessor : Yields Step.Any (plainAccessor env f) := by
  unfold plainAccessor
  infer_instance

instance even_elementRead : Yields Step.Any (elementRead env f) := by
  unfold elementRead
  infer_instance

instance even_nestedRoot : Yields Step.Any (nestedRoot env f i) := by
  unfold nestedRoot
  infer_instance

instance even_vectorAccessors : Yields Step.Any (vectorAccessors env f) := by
  unfold vectorAccessors
  dsimp only
  cases f.nested <;> infer_instance

instance even_tableMutator : Even (tableMutator env f) := by
  unfold tableMutator
  infer_instance

instance even_tableField : Yields Step.Any (tableField env f) := by
  unfold tableField
  infer_instance

instance even_rootMethods : Even (rootMethods env i) := by
  unfold rootMethods
  split <;> infer_instance

instance even_tableClass : Yields Step.Any (tableClass env i d) := by
  unfold tableClass
  infer_instance

/-! ## Builders -/

instance even_loopEnd : Even (spelling env).loopEnd := by
  unfold spelling
  infer_instance

instance even_structBuilder : Even (structBuilder env d) := by
  unfold structBuilder
  infer_instance

instance even_addMethods : Even (addMethods env f) := by
  unfold addMethods
  infer_instance

instance even_requiredCheck : Even (requiredCheck d f) := by
  unfold requiredCheck
  infer_instance

instance even_createMethod : Even (createMethod env d) := by
  unfold createMethod
  infer_instance

instance even_finishBuffer : Even (finishBuffer env) := by
  unfold finishBuffer
  infer_instance

instance even_tableBuilder : Even (tableBuilder env i d) := by
  unfold tableBuilder
  infer_instance

/-! ## Objects -/

instance even_objectConstructors : Even (objectConstructors env d) := by
  unfold objectConstructors
  infer_instance

instance even_unpackMethod {fields : List Code} [Keeps Step.Any fields] : Even (unpackMethod fields) := by
  unfold unpackMethod
  infer_instance

instance even_objectClass {unpack pack : Code} [Even unpack] [Even pack] : Even (objectClass env d unpack pack) := by
  unfold objectClass
  infer_instance

instance even_unpackStructField : Yields Step.Any (unpackStructField env f) := by
  unfold unpackStructField
  infer_instance

instance even_structObject : Yields Step.Any (structObject env d) := by
  unfold structObject
  infer_instance

instance even_unpackVector : Yields Step.Any (unpackVector env f) := by
  unfold unpackVector
  infer_instance

instance even_unpackTableField : Yields Step.Any (unpackTableField env f) := by
  unfold unpackTableField
  infer_instance

instance even_packPayload {hasString : Bool} : Even (packPayload goal value hasString) := by
  unfold packPayload
  infer_instance

instance even_packOffsets : Even (packOffsets name) := by
  unfold packOffsets
  infer_instance

instance even_packInline {size align : Nat} : Even (packInline name list size align value) := by
  unfold packInline
  infer_instance

instance even_packChild {kind : ChildKind} : Yields Step.Any (packChild env f kind) := by
  unfold packChild
  cases kind <;> infer_instance

instance even_packSlot {kind : SlotKind} : Even (packSlot env f kind) := by
  unfold packSlot
  cases kind <;> infer_instance

instance even_tableObject : Yields Step.Any (tableObject env d) := by
  unfold tableObject
  infer_instance

instance even_structCode : Yields Step.Any (structCode env d) := by
  unfold structCode
  infer_instance

instance even_tableCode : Yields Step.Any (tableCode env i d) := by
  unfold tableCode
  infer_instance

/-! ## The last line -/

/-- The last of the greatest members is one of the members. -/
theorem lastGreatest?_mem : ∀ {vs : List EnumVal}, lastGreatest? vs = some v → v ∈ vs
  | [], h => by cases h
  | w :: vs, h => by
    unfold lastGreatest? at h
    split at h
    next u hu =>
      rw [Option.some.injEq] at h
      split at h
      · exact h ▸ List.mem_cons_self
      · exact List.mem_cons_of_mem w (lastGreatest?_mem (h ▸ hu))
    next => exact Option.some.inj h ▸ List.mem_cons_self

/-- The name of a member has no character that the writer takes for more than text. -/
theorem inert_variant (o : Options) (h : isIdentifier name = true) : ∀ c ∈ ((namer o).variant name).toList, Writer.Inert c := by
  refine CharKind.mem_format (.and (.ne rfl (by decide)) (.ne rfl (by decide))) ?_ ?_ _ ?_
  · simp [namer]
  · simp [namer]
  · exact fun c hc => ⟨fun h' => not_mem_of_isIdentifier h rfl (h' ▸ hc), fun h' => not_mem_of_isIdentifier h rfl (h' ▸ hc)⟩

/-- The number of a member has no such character either. -/
theorem inert_valueText (e : EnumDef) (n : Int) : ∀ c ∈ (e.valueText n).toList, Writer.Inert c := by
  have hdigits : ∀ m : Nat, ∀ c ∈ (toString m).toList, Writer.Inert c := by
    intro m c hc
    have hdigit := TypeExpr.toString_digits m c hc
    constructor <;> (rintro rfl; exact absurd hdigit (by decide))
  unfold EnumDef.valueText
  split
  · exact hdigits _
  · cases n with
    | ofNat m => exact hdigits m
    | negSucc m =>
      have hminus : toString (Int.negSucc m) = "-" ++ toString (m + 1) := rfl
      rw [hminus, String.toList_append, List.forall_mem_append]
      exact ⟨by simp [Writer.Inert], hdigits (m + 1)⟩

/-- A line that ends with the number of a member is complete. -/
theorem settles_value {lead : String} (h : Writer.Ended lead) (e : EnumDef) (n : Int) :
    Settles (line (lead ++ e.valueText n : String)) := .line (h.append (inert_valueText e n)).complete

/-- Without members the bounds are lines of their own. -/
theorem settles_bounds_nil (h : e.vals = []) : Settles (bounds env e) := by
  have hval? : ∀ name, (e.val? name).isNone = true := by
    intro name
    rw [EnumDef.val?, h]
    rfl
  unfold bounds
  split
  · rw [hval?, hval?]
    exact (settles_value ⟨' ', rfl, by decide⟩ e _).after _
  · rw [h]
    exact .line (by decide)

/-- Bounds leave no line open: they end with the name of a member. -/
theorem calm_bounds {o : Options} (henv : env.namer = namer o) (he : ∀ v ∈ e.vals, isIdentifier v.name = true) :
    Calm (bounds env e) := by
  unfold bounds
  split
  · refine .append (.when ?_) (.when ?_)
    · exact (Settles.line (by decide)).calm
    · exact (settles_value ⟨' ', rfl, by decide⟩ e _).calm
  · split
    next least greatest _ hgreatest =>
      rw [henv]
      have hname := inert_variant o (he _ (lastGreatest?_mem hgreatest))
      refine .when (Settles.calm (Settles.after _ (.line (Writer.Ended.complete ?_))))
      exact Writer.Ended.append ⟨' ', rfl, by decide⟩ hname
    next => exact (Settles.line (by decide)).calm

/-- Whether or not an enum has members, its class has a last line that is complete. -/
theorem settles_members_bounds {o : Options} (henv : env.namer = namer o) (he : ∀ v ∈ e.vals, isIdentifier v.name = true) :
    Settles (members env e ++ bounds env e) := by
  rcases List.eq_nil_or_concat e.vals with hvals | ⟨vs, v, hvals⟩
  · exact (settles_bounds_nil hvals).after _
  · refine .append_calm ?_ (calm_bounds henv he)
    unfold members
    rw [hvals, List.concat_eq_append, List.flatMap_append, List.flatMap_singleton]
    exact ((settles_value (.after _ ⟨' ', rfl, by decide⟩) e v.value).after _).after _

/-- The map from variants to tables ends with a complete line. -/
theorem settles_tableTypes : Gives Settles (tableTypes env e) := by
  unfold tableTypes
  exact .after fun entries => .ok ((Settles.nested _ (.ite (.line (by decide)) ((Settles.block _ _ (by decide)).after _))).after _)

/-- The class of an enum ends with a complete line, be it a bound or a member. -/
theorem settles_enumClass {o : Options} (henv : env.namer = namer o) (he : ∀ v ∈ e.vals, isIdentifier v.name = true) :
    Gives Settles (enumClass env e) := by
  have hclass : ∀ types, Calm types → Settles (docstring e.doc ++ members env e ++ bounds env e ++ types) := by
    intro types htypes
    rw [List.append_assoc (docstring e.doc)]
    exact .append_calm ((settles_members_bounds henv he).after _) htypes
  unfold enumClass
  exact .ite_bind (settles_tableTypes.imp fun _ => Settles.calm) (.ok .nil) fun types h =>
    .ok ((Settles.nested _ (hclass types h)).after _)

/-- The function that makes a payload ends with a complete line. -/
theorem settles_payloadFunction : Gives Settles (payloadFunction env e) := by
  unfold payloadFunction
  exact .after fun branches => .ok (.nested _ ((Settles.line (by decide)).after _))

/-- The gap in front of a class ends with a blank line. -/
theorem settles_gap : Settles gap := Settles.blank.after blank

/-- The code of an enum or union ends with a complete line. -/
theorem settles_enumCode {o : Options} (henv : env.namer = namer o) (he : ∀ v ∈ e.vals, isIdentifier v.name = true) :
    Gives Settles (enumCode env e) := by
  unfold enumCode
  refine (settles_enumClass henv he).bind fun cls hcls => ?_
  refine .ite_bind (settles_payloadFunction.imp fun _ => Settles.calm) (.ok .nil) fun creator h => ?_
  exact .ok (hcls.append_calm (.when (.append settles_gap.calm h)))

/-- The builder of a struct ends with a complete line. -/
theorem settles_structBuilder : Settles (structBuilder env d) := by
  unfold structBuilder
  exact .nested _ ((Settles.line (by decide)).after _)

/-- The builders of a table end with a complete line. -/
theorem settles_tableBuilder : Settles (tableBuilder env i d) := by
  have hfinish : Settles (finishBuffer env) := by
    unfold finishBuffer suite
    simp only [inset_append]
    refine .after _ (.after _ (.after _ (.after _ (.line (Writer.Ended.complete ?_)))))
    exact .after _ (.after _ (.after _ ⟨')', rfl, by decide⟩))
  have hcreate : Settles (createMethod env d) := by
    unfold createMethod
    exact (Settles.nested _ ((Settles.line (by decide)).after _)).after _
  unfold tableBuilder
  refine .nested _ (.append_calm (.append_calm ?_ (.when hcreate.calm)) (.when hfinish.calm))
  exact (Settles.nested _ ((Settles.line (by decide)).after _)).after _

/-- The object of a struct ends with a complete line. -/
theorem settles_structObject : Gives Settles (structObject env d) := by
  unfold structObject objectClass suite
  exact .after fun fields => .ok (.nested _ (.after _ (.after _ (.inset_line (.after _ ⟨')', rfl, by decide⟩)))))

/-- The object of a table ends with a complete line. -/
theorem settles_tableObject : Gives Settles (tableObject env d) := by
  unfold tableObject objectClass
  refine .after fun fields => .after fun children => .ok (.nested _ (.after _ (.nested _ ?_)))
  exact (Settles.line (by decide)).after _

/-- The code of a fixed struct ends with a complete line, with and without its object. -/
theorem settles_structCode : Gives Settles (structCode env d) := by
  unfold structCode
  refine .after fun view => .ite ?_ ?_
  · exact settles_structObject.bind fun _ h => .ok (.append_calm (settles_structBuilder.after _) (h.after gap).calm)
  · exact .ok (.append_calm (settles_structBuilder.after _) .nil)

/-- The code of a table ends with a complete line, with and without its object. -/
theorem settles_tableCode : Gives Settles (tableCode env i d) := by
  unfold tableCode
  refine .after fun view => .ite ?_ ?_
  · exact settles_tableObject.bind fun _ h => .ok (.append_calm (settles_tableBuilder.after _) (h.after gap).calm)
  · exact .ok (.append_calm (settles_tableBuilder.after _) .nil)

/-- The code of a definition is whole, if the members of an enum are named by identifiers. -/
theorem whole_define {o : Options} (henv : env.namer = namer o) (state : FileState) {x : Definition}
    (hmembers : ∀ i e, x = .enum i e → ∀ v ∈ e.vals, isIdentifier v.name = true) :
    Gives Whole ((target o).define env state x) := by
  cases x with
  | enum i e => exact (Whole.gives (settles_enumCode henv (hmembers i e rfl))).bind fun c h => .ok (h.after _)
  | struct i d =>
    refine .ite ?_ ?_
    · exact (Whole.gives settles_structCode).bind fun c h => .ok (h.after _)
    · exact (Whole.gives settles_tableCode).bind fun c h => .ok (h.after _)

end FlatSchema.Python

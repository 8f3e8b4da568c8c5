import FlatSchema.Proofs.AccessPaths

/-!
# The two walks of a plan agree

One walk over a struct lists its parameters, from the first field to the last, and another its steps, from the last field to the
first. The steps mirror the parameters (`Mirrors`): they write them in the opposite order, those inside an array in a loop over it
and the others in none. Loops do not stand in loops, because the structs in an array hold no other array. Since the parameters are
the paths to the values of the struct, a run of the steps puts all of them where they are read (`StructPlan.of_puts_where_read`).
-/

namespace FlatSchema

/-! ## Loops -/

/-- The lengths of the loops behind a step, innermost first. No loop ends that was not begun. -/
def BuildOp.loopsBehind (loops : List Nat) : BuildOp → Option (List Nat)
  | .beginArray n => some (n :: loops)
  | .endArray => loops.tail?
  | _ => some loops

/-- Steps with the lengths of the loops around them, innermost first. There are none unless every loop begins and ends. -/
def stepsAround : List Nat → List BuildOp → Option (List (BuildOp × List Nat))
  | loops, [] => if loops.isEmpty then some [] else none
  | loops, op :: rest => (op.loopsBehind loops).bind fun behind => (stepsAround behind rest).map ((op, loops) :: ·)

theorem stepsAround_map_fst : ∀ {ops : List BuildOp} {loops : List Nat} {steps : List (BuildOp × List Nat)},
    stepsAround loops ops = some steps → steps.map Prod.fst = ops
  | [], loops, steps, h => by
    rw [stepsAround] at h
    split at h
    next =>
      cases h
      rfl
    next => cases h
  | op :: rest, loops, steps, h => by
    obtain ⟨behind, _, h⟩ := Option.bind_eq_some_iff.1 h
    obtain ⟨steps', hrest, rfl⟩ := Option.map_eq_some_iff.1 h
    exact congrArg (op :: ·) (stepsAround_map_fst hrest)

theorem stepsAround_cons {op : BuildOp} {loops behind : List Nat} (h : op.loopsBehind loops = some behind)
    (rest : List BuildOp) : stepsAround loops (op :: rest) = (stepsAround behind rest).map ((op, loops) :: ·) := by
  rw [stepsAround, h, Option.bind_some]

/-- What a step writes, with the loops around it. -/
def putAround : BuildOp × List Nat → Option (String × TypeDesc × Bool × List Nat)
  | (.put name t inArray, loops) => some (name, t, inArray, loops)
  | _ => none

/-- The loops in which a parameter is written: one over the array around it, if there is one. -/
def loopsOf (span : Option ArraySpan) : List Nat := (span.map (·.length)).toList

/-! ## Steps that mirror parameters -/

/-- Steps inside an array, if any, that write given parameters. A loop is over an array and stands in no other loop. -/
inductive Mirrors : Option ArraySpan → List BuildOp → List StructParam → Prop
  | nil {span : Option ArraySpan} : Mirrors span [] []
  | prep {span : Option ArraySpan} (align size : Nat) : Mirrors span [.prep align size] []
  | pad {span : Option ArraySpan} (count : Nat) : Mirrors span [.pad count] []
  | put (p : StructParam) : Mirrors p.span [.put p.name p.type p.span.isSome] [p]
  | append {span : Option ArraySpan} {ops ops' : List BuildOp} {params params' : List StructParam}
    (h : Mirrors span ops params) (h' : Mirrors span ops' params') : Mirrors span (ops ++ ops') (params ++ params')
  | loop (array : ArraySpan) {body : List BuildOp} {params : List StructParam} (h : Mirrors (some array) body params) :
    Mirrors none (.beginArray array.length :: body ++ [.endArray]) params

namespace Mirrors

/-- Steps that mirror parameters write them in their order, each in the loop over its array, and begin no loop in a loop. They
leave the loops as they were for the steps behind them. -/
theorem around {span : Option ArraySpan} {ops : List BuildOp} {params : List StructParam} (h : Mirrors span ops params) :
    ∃ steps, (∀ rest, stepsAround (loopsOf span) (ops ++ rest) = (stepsAround (loopsOf span) rest).map (steps ++ ·)) ∧
      steps.filterMap putAround = params.map (fun p => (p.name, p.type, p.span.isSome, loopsOf p.span)) ∧
      ∀ n loops, (.beginArray n, loops) ∈ steps → loops = [] := by
  induction h with
  | nil => exact ⟨[], fun rest => Option.map_id'.symm, rfl, fun _ _ hmem => absurd hmem List.not_mem_nil⟩
  | prep | pad | put => exact ⟨[_], fun rest => stepsAround_cons rfl rest, rfl, fun n loops hmem => by simp at hmem⟩
  | append _ _ ih ih' =>
    obtain ⟨steps, hsteps, hputs, hloops⟩ := ih
    obtain ⟨steps', hsteps', hputs', hloops'⟩ := ih'
    refine ⟨steps ++ steps', fun rest => ?_, ?_, fun n loops hmem => ?_⟩
    · rw [List.append_assoc, hsteps, hsteps', Option.map_map]
      simp only [Function.comp_def, List.append_assoc]
    · rw [List.filterMap_append, List.map_append, hputs, hputs']
    · rcases List.mem_append.1 hmem with hmem | hmem
      · exact hloops n loops hmem
      · exact hloops' n loops hmem
  | @loop array body params _ ih =>
    obtain ⟨steps, hsteps, hputs, hloops⟩ := ih
    have hout : BuildOp.loopsBehind (loopsOf (some array)) .endArray = some [] := rfl
    refine ⟨(.beginArray array.length, []) :: steps ++ [(.endArray, [array.length])], fun rest => ?_, ?_, fun n loops hmem => ?_⟩
    · -- the loop is closed behind its body, so that what follows stands in no loop
      have hbody := hsteps (.endArray :: rest)
      rw [stepsAround_cons hout, Option.map_map] at hbody
      have hbegin : stepsAround (loopsOf none) (.beginArray array.length :: body ++ [.endArray] ++ rest) =
          (stepsAround (loopsOf (some array)) (body ++ .endArray :: rest)).map ((.beginArray array.length, []) :: ·) := by
        rw [List.cons_append, List.cons_append, List.append_assoc]
        exact stepsAround_cons rfl _
      rw [hbegin, hbody, Option.map_map]
      simp [Function.comp_def, loopsOf]
    · simp [List.filterMap_cons, List.filterMap_append, hputs, putAround]
    · simp only [List.cons_append, List.mem_cons, List.mem_append, List.not_mem_nil, or_false, Prod.mk.injEq] at hmem
      rcases hmem with ⟨_, rfl⟩ | hmem | ⟨hop, _⟩
      · rfl
      · exact hloops n loops hmem
      · cases hop

/-- Padding of some length, or none. -/
theorem padding {span : Option ArraySpan} (count : Nat) : Mirrors span (if count = 0 then [] else [.pad count]) [] := by
  split
  · exact .nil
  · exact .pad count

/-- Fields in a row are written from the last to the first. -/
theorem fields {span : Option ArraySpan} {ops : FieldDef → List BuildOp} {params : FieldDef → List StructParam} :
    ∀ {fields : List FieldDef}, (∀ f ∈ fields, Mirrors span (ops f) (params f).reverse) →
      Mirrors span (fields.reverse.flatMap ops) (fields.flatMap params).reverse
  | [], _ => .nil
  | f :: rest, h => by
    rw [List.reverse_cons, List.flatMap_append, List.flatMap_singleton, List.flatMap_cons, List.reverse_append]
    exact .append (fields fun g hg => h g (List.mem_cons_of_mem f hg)) (h f List.mem_cons_self)

end Mirrors

namespace Loaded

variable {doc : SchemaDoc} {names : NameTable} {declared : List StructDef} {s : Schema} {d : StructDef}

/-- The steps of a field mirror its parameters, if those of the struct that it may hold do. -/
theorem mirrors_field (h : Loaded doc names declared s) (hd : d ∈ s.structs) (hfixed : d.fixed = true) {f : FieldDef}
    (hf : f ∈ d.fields) {depth : Nat} (hinner : ∀ inner, f.inner? s = some inner → ∀ lead path span,
      (span.isSome = true → ¬HasArray s inner) → Mirrors span (StructPlan.opsOf s depth inner lead span.isSome)
        (StructPlan.paramsOf s depth inner lead path span).reverse)
    (name : String) (path : List FieldDef) {span : Option ArraySpan} (hspan : span.isSome = true → ¬HasArray s d) :
    Mirrors span (StructPlan.valueOps s depth span.isSome name f.type)
      (StructPlan.fieldParams s depth path span name f).reverse := by
  rw [StructPlan.valueOps_eq (h.struct_found hd hfixed hf), StructPlan.fieldParams_eq (h.struct_found hd hfixed hf)]
  have helement : ∀ span : Option ArraySpan, (span.isSome = true → ∀ inner, f.inner? s = some inner → ¬HasArray s inner) →
      Mirrors span (StructPlan.elementOps s depth span.isSome name f)
        (StructPlan.elementParams s depth path span name f).reverse := by
    intro span hspan
    unfold StructPlan.elementOps StructPlan.elementParams
    cases hi : f.inner? s with
    | none => exact .put { name, path := path ++ [f], type := f.valueType, span }
    | some inner => exact hinner inner hi _ _ span fun hsome => hspan hsome inner hi
  cases ha : f.type.isArray with
  | false =>
    rw [FieldDef.spanAt_of_no_array ha, Option.none_or]
    exact helement span fun hsome => (FieldDef.not_hasArray hf (hspan hsome)).2
  | true =>
    -- an array stands in no other
    obtain rfl : span = none := Option.not_isSome_iff_eq_none.1 fun hsome => hspan hsome (.here hf ha)
    rw [FieldDef.spanAt_of_array ha, Option.or_none]
    exact .loop ⟨path.length, f.type.length, f.type.elementType.isStruct⟩
      (helement (some _) fun _ inner hi => (h.inner_fixed hd hfixed hf hi).2.2 ha)

/-- The steps of a plan mirror its parameters. -/
theorem mirrors (h : Loaded doc names declared s) (hd : d ∈ s.structs) (hfixed : d.fixed = true) :
    Mirrors none (StructPlan.of s d).ops (StructPlan.of s d).params.reverse := by
  have hall := h.flatten_induction (motive := fun depth d => ∀ lead path span, (span.isSome = true → ¬HasArray s d) →
    Mirrors span (StructPlan.opsOf s depth d lead span.isSome) (StructPlan.paramsOf s depth d lead path span).reverse) ?_ hd hfixed
  · exact hall "" [] none fun hsome => Bool.noConfusion hsome
  · intro depth d hd hfixed ih lead path span hspan
    rw [StructPlan.paramsOf_succ]
    refine .append (.prep d.minAlign d.byteSize) (.fields fun f hf => ?_)
    exact .append (.padding f.padding) (h.mirrors_field hd hfixed hf (ih f hf) _ path hspan)

end Loaded

/-- The steps and the parameters of a plan agree. In the opposite order the steps write the parameters, each inside an array in
one loop of its length and otherwise in none; loops begin and end, and none begins in another. The paths of the parameters are the
paths to the values of the struct, and the array of a parameter is the only one on its path. -/
theorem StructPlan.of_agrees {doc : SchemaDoc} {s : Schema} (h : Schema.ofDocument doc = .ok s) {d : StructDef}
    (hd : d ∈ s.structs) (hfixed : d.fixed = true) :
    (∃ steps, stepsAround [] (StructPlan.of s d).ops = some steps ∧ steps.map Prod.fst = (StructPlan.of s d).ops ∧
      (steps.filterMap putAround).reverse =
        (StructPlan.of s d).params.map (fun p => (p.name, p.type, p.span.isSome, loopsOf p.span)) ∧
      ∀ n loops, (.beginArray n, loops) ∈ steps → loops = []) ∧
    (∀ path, AccessPath s d path ↔ ∃ p ∈ (StructPlan.of s d).params, p.path = path) ∧
    ∀ p ∈ (StructPlan.of s d).params, p.field?.map FieldDef.valueType = some p.type ∧
      (p.span = none → ∀ f ∈ p.path, f.type.isArray = false) ∧ ∀ array, p.span = some array → array.OnPath p.path := by
  obtain ⟨names, declared, h⟩ := Schema.ofDocument_loaded h
  refine ⟨?_, h.accessPath_iff hd hfixed, fun p hp => h.param_onPath hd hfixed hp⟩
  obtain ⟨steps, hsteps, hputs, hloops⟩ := (h.mirrors hd hfixed).around
  have hall : stepsAround [] (StructPlan.of s d).ops = some steps := by
    have hend := hsteps []
    rw [List.append_nil] at hend
    simpa [loopsOf, stepsAround] using hend
  refine ⟨steps, hall, stepsAround_map_fst hall, ?_, hloops⟩
  rw [hputs, List.map_reverse, List.reverse_reverse]

/-- A struct in an array in a struct: the fields of the elements are parameters of their own, in the loop over the array. -/
theorem sampleDoc_agrees : ∃ s d, Schema.ofDocument sampleDoc = .ok s ∧ d ∈ s.structs ∧ d.fixed = true ∧
    (StructPlan.of s d).params.map (fun p => (p.name, loopsOf p.span)) =
      [("tag", []), ("pos_a", []), ("pos_b", []), ("grid_a", [2]), ("grid_b", [2]), ("xs", [3])] ∧
    (∃ steps, stepsAround [] (StructPlan.of s d).ops = some steps ∧ ∀ n loops, (.beginArray n, loops) ∈ steps → loops = []) ∧
    ∀ p ∈ (StructPlan.of s d).params, ∀ array, p.span = some array → array.OnPath p.path := by
  obtain ⟨s, hs, hlook⟩ := Schema.exists_ofDocument sampleDoc
    (fun s => s.structs[0]?.map fun d => (d.fixed, (StructPlan.of s d).params.map fun p => (p.name, loopsOf p.span)))
    (some (true, [("tag", []), ("pos_a", []), ("pos_b", []), ("grid_a", [2]), ("grid_b", [2]), ("xs", [3])])) (by decide +kernel)
  obtain ⟨d, hd, hseen⟩ := Option.map_eq_some_iff.1 hlook
  simp only [Prod.mk.injEq] at hseen
  have hmem := List.mem_of_getElem? hd
  obtain ⟨⟨steps, hsteps, _, _, hloops⟩, _, hspans⟩ := StructPlan.of_agrees hs hmem hseen.1
  exact ⟨s, d, hs, hmem, hseen.1, hseen.2, ⟨steps, hsteps, hloops⟩, fun p hp => (hspans p hp).2.2⟩

/-! ## Values where they are read -/

open Builder

/-- The plan of a fixed struct puts every value where it is read. Its parameters are the paths to the values of the struct, each with
the array on its path, and its steps name them from the last to the first. The first step aligns the struct; after it nothing is
inserted, and the run ends a whole struct later. Every step that writes a value writes one of a parameter. Every value of a parameter
is written, at each index of its array or once without one, and the counter then stands as far from the end of the run as the value
is read from the start of the struct. -/
theorem StructPlan.of_puts_where_read {doc : SchemaDoc} {s : Schema} (h : Schema.ofDocument doc = .ok s) {d : StructDef}
    (hd : d ∈ s.structs) (hfixed : d.fixed = true) (n₀ : Nat) :
    (∀ path, AccessPath s d path ↔ ∃ p ∈ (StructPlan.of s d).params, p.path = path) ∧
    (∀ p ∈ (StructPlan.of s d).params, p.field?.map FieldDef.valueType = some p.type ∧
      (p.span = none → ∀ f ∈ p.path, f.type.isArray = false) ∧ ∀ array, p.span = some array → array.OnPath p.path) ∧
    puts (StructPlan.of s d).ops = (StructPlan.of s d).params.reverse.map (fun p => (p.name, p.type, p.span.isSome)) ∧
      ∃ first rest n₁, exec n₀ (actions (StructPlan.of s d)) = first :: rest ∧
        first.action.op = .prep d.minAlign d.byteSize ∧
        first.stop = n₁ ∧ n₁ = n₀ + gap (n₀ + d.byteSize) d.minAlign ∧
        finish n₀ (actions (StructPlan.of s d)) = n₁ + d.byteSize ∧
        (∀ e ∈ rest, e.inserted = 0) ∧
        (∀ e ∈ rest, ∀ name t inArray, e.action.op = .put name t inArray →
          ∃ p ∈ (StructPlan.of s d).params, e.action.param = some p ∧ name = p.name ∧ t = p.type ∧
            p.HasIndex e.action.indices ∧ e.stop + p.offsetAt s (e.action.indices.headD 0) = n₁ + d.byteSize) ∧
        ∀ p ∈ (StructPlan.of s d).params, ∀ indices, p.HasIndex indices →
          ∃ e ∈ rest, e.action.op = .put p.name p.type p.span.isSome ∧ e.action.param = some p ∧ e.action.indices = indices ∧
            e.stop + p.offsetAt s (indices.headD 0) = n₁ + d.byteSize := by
  obtain ⟨names, declared, h⟩ := Schema.ofDocument_loaded h
  exact ⟨h.accessPath_iff hd hfixed, fun p hp => h.param_onPath hd hfixed hp, h.plan_run hd hfixed n₀⟩

/-- A struct of 64 bytes that asks for an alignment of 16, built after five bytes: eleven bytes are inserted in front, and none
later. The second field of the last element in its array of structs is read at 48, so the counter stands at 32 when it is written. -/
theorem sampleDoc_plan : ∃ s d, Schema.ofDocument sampleDoc = .ok s ∧ d ∈ s.structs ∧ d.fixed = true ∧
    finish 5 (actions (StructPlan.of s d)) = 80 ∧
    ∃ first rest, exec 5 (actions (StructPlan.of s d)) = first :: rest ∧ first.stop = 16 ∧ (∀ e ∈ rest, e.inserted = 0) ∧
      ∃ p ∈ (StructPlan.of s d).params, (p.path.map (·.name), p.span.map (·.length), p.offsetAt s 1) = (["grid", "b"], some 2, 48) ∧
        ∃ e ∈ rest, e.action.op = .put "grid_b" (.plain .double) true ∧ e.action.param = some p ∧ e.action.indices = [1] ∧
          e.stop = 32 := by
  obtain ⟨s, hs, hlook⟩ := Schema.exists_ofDocument sampleDoc
    (fun s => s.structs[0]?.map fun d : StructDef => decide (d.fixed = true ∧ d.byteSize = 64 ∧ d.minAlign = 16 ∧
      ∃ p ∈ (StructPlan.of s d).params, (p.name, p.type) = ("grid_b", .plain .double) ∧
        (p.path.map (·.name), p.span.map (·.length), p.offsetAt s 1) = (["grid", "b"], some 2, 48)))
    (some true) (by decide +kernel)
  obtain ⟨d, hd, hlook⟩ := Option.map_eq_some_iff.1 hlook
  obtain ⟨hfixed, hsize, halign, p, hparam, hnamed, hplaced⟩ := of_decide_eq_true hlook
  obtain ⟨hname, htype⟩ := Prod.mk.inj hnamed
  obtain ⟨_, hrest⟩ := Prod.mk.inj hplaced
  obtain ⟨hlength, hoffset⟩ := Prod.mk.inj hrest
  obtain ⟨array, hspan, harray⟩ := Option.map_eq_some_iff.1 hlength
  have hmem := List.mem_of_getElem? hd
  obtain ⟨_, _, _, first, rest, n₁, hrun, _, hstop, hn, hfinish, hnone, _, hputs⟩ :=
    StructPlan.of_puts_where_read hs hmem hfixed 5
  have hn₁ : n₁ = 16 := by
    rw [hn, hsize, halign]
    decide
  have hindex : p.HasIndex [1] := by
    rw [StructParam.HasIndex, hspan]
    exact ⟨1, by omega, rfl⟩
  obtain ⟨e, he, hop, hof, hindices, hcounter⟩ := hputs p hparam [1] hindex
  rw [hname, htype, hspan] at hop
  rw [hn₁, hsize] at hfinish hcounter
  have hend : e.stop + 48 = 80 := hoffset ▸ hcounter
  exact ⟨s, d, hs, hmem, hfixed, hfinish, first, rest, hrun, hstop.trans hn₁, hnone, p, hparam, hplaced, e, he, hop, hof, hindices,
    Nat.add_right_cancel hend⟩

end FlatSchema

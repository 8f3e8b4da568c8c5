import FlatSchema.Proofs.FilePaths
import Mathlib.Data.List.Induction
import Mathlib.Data.List.Perm.Basic

/-!
# Every definition is written once

The files of a run share out the definitions of the schema: each is in one file, and each file holds its own in the order of the
schema (`OutputLayout.Shares.perm`, `FileGroup.foldl_add`). While a file is written, the target is asked for each of its definitions once. What it
is told then is known from the definitions before (`Target.Asked`), and the body is made of its answers and of the moves between
namespaces (`body_eq_ok_iff`).
-/

namespace FlatSchema

/-! ## The definitions of a schema -/

namespace Definition

/-- Whether a definition is written elsewhere. -/
def generated : Definition → Bool
  | .enum _ e => e.generated
  | .struct _ d => d.generated

/-- The order of definitions: enums before structs, and each kind by its places. -/
def Before : Definition → Definition → Prop
  | .enum i _, .enum j _ => i < j
  | .enum _ _, .struct _ _ => True
  | .struct _ _, .enum _ _ => False
  | .struct i _, .struct j _ => i < j

/-- A definition is the one at its place in a schema. -/
def At (s : Schema) : Definition → Prop
  | .enum i e => s.enums[i]? = some e
  | .struct i d => s.structs[i]? = some d

end Definition

/-- Indices ascend. -/
theorem zipIdx_ascending {α : Type} (xs : List α) (k : Nat) : (xs.zipIdx k).Pairwise fun a b => a.2 < b.2 := by
  induction xs generalizing k with
  | nil => exact .nil
  | cons x xs ih =>
    refine List.pairwise_cons.2 ⟨fun p hp => ?_, ih (k + 1)⟩
    have := (List.mem_zipIdx hp).1
    omega

namespace Schema

/-- The definitions are in order: enums before structs, and both by their indices. -/
theorem definitions_ascending (s : Schema) : s.definitions.Pairwise Definition.Before := by
  refine List.pairwise_append.2 ⟨List.pairwise_map.2 ?_, List.pairwise_map.2 ?_, ?_⟩
  · exact (zipIdx_ascending _ _).sublist List.filter_sublist
  · exact (zipIdx_ascending _ _).sublist List.filter_sublist
  · intro a ha b hb
    obtain ⟨_, _, rfl⟩ := List.mem_map.1 ha
    obtain ⟨_, _, rfl⟩ := List.mem_map.1 hb
    trivial

/-- The definitions are all the enums and structs that are not marked as generated elsewhere. -/
theorem mem_definitions_iff {s : Schema} {d : Definition} : d ∈ s.definitions ↔ d.At s ∧ d.generated = false := by
  unfold definitions
  cases d with
  | enum i e => simp [Definition.At, Definition.generated, List.mem_zipIdx_iff_getElem?]
  | struct i d => simp [Definition.At, Definition.generated, List.mem_zipIdx_iff_getElem?]

end Schema

/-! ## Files by namespace -/

/-- An item is added behind the others if it is new. -/
theorem eraseDups_concat {α : Type} [DecidableEq α] (xs : List α) (x : α) :
    (xs ++ [x]).eraseDups = if x ∈ xs.eraseDups then xs.eraseDups else xs.eraseDups ++ [x] := by
  rw [List.eraseDups_append]
  by_cases hx : x ∈ xs <;> simp [List.removeAll, hx, List.eraseDups_cons]

theorem eraseDups_nodup {α : Type} [DecidableEq α] (xs : List α) : xs.eraseDups.Nodup := by
  induction xs using List.reverseRecOn with
  | nil => exact List.nodup_nil
  | append_singleton xs x ih =>
    rw [eraseDups_concat]
    split
    next => exact ih
    next hx => exact List.nodup_append.2 ⟨ih, List.nodup_singleton _, fun a ha b hb => by grind⟩

/-- Elements that are put together by a key: nothing is lost and nothing doubled. -/
theorem flatMap_filter_perm {α κ : Type} [DecidableEq κ] (key : α → κ) :
    ∀ {keys : List κ} {xs : List α}, keys.Nodup → (∀ x ∈ xs, key x ∈ keys) →
      (keys.flatMap fun k => xs.filter (key · = k)).Perm xs
  | [], xs, _, h => by
    have hnil : xs = [] := List.eq_nil_iff_forall_not_mem.2 fun x hx => List.not_mem_nil (h x hx)
    rw [hnil]
    exact .refl _
  | k :: keys, xs, hkeys, h => by
    obtain ⟨hk, hkeys⟩ := List.nodup_cons.1 hkeys
    -- The other keys see the same elements once those of the first are gone.
    have hothers : ∀ k' ∈ keys, xs.filter (key · = k') = (xs.filter fun x => !decide (key x = k)).filter (key · = k') := by
      intro k' hk'
      rw [List.filter_filter]
      refine List.filter_congr fun x _ => ?_
      have hne : k' ≠ k := fun e => hk (e ▸ hk')
      by_cases hx : key x = k' <;> simp [hx, hne]
    have hrest : ∀ x ∈ xs.filter (fun x => !decide (key x = k)), key x ∈ keys := by
      intro x hx
      obtain ⟨hx, hne⟩ := List.mem_filter.1 hx
      exact (List.mem_cons.1 (h x hx)).resolve_left (by simpa using hne)
    rw [List.flatMap_cons, List.flatMap_congr hothers]
    exact ((flatMap_filter_perm key hkeys hrest).append_left _).trans (List.filter_append_perm _ _)

namespace FileGroup

/-- The file of a namespace with its part of some definitions. -/
def ofScope (path : Namespace → String) (ds : List Definition) (scope : Namespace) : FileGroup where
  path := path scope
  scope := scope
  definitions := ds.filter (·.scope = scope)

/-- A definition of another namespace does not change the file of a namespace. -/
theorem ofScope_concat_of_ne {path : Namespace → String} {ds : List Definition} {d : Definition} {scope : Namespace}
    (h : d.scope ≠ scope) : ofScope path (ds ++ [d]) scope = ofScope path ds scope := by
  simp [ofScope, List.filter_append, h]

/-- One more definition goes to the file of its namespace, which stands last if it is new. -/
theorem add_map_ofScope (path : Namespace → String) {ds : List Definition} (d : Definition) :
    ∀ {scopes : List Namespace}, scopes.Nodup → (d.scope ∉ scopes → ds.filter (·.scope = d.scope) = []) →
      add path d (scopes.map (ofScope path ds)) =
        (if d.scope ∈ scopes then scopes else scopes ++ [d.scope]).map (ofScope path (ds ++ [d]))
  | [], _, hnew => by
    have hnone := hnew List.not_mem_nil
    simp [add, ofScope, List.filter_append, hnone]
  | scope :: scopes, hnodup, hnew => by
    obtain ⟨hscope, hnodup⟩ := List.nodup_cons.1 hnodup
    rw [List.map_cons, add]
    by_cases heq : scope = d.scope
    · subst heq
      have hothers : scopes.map (ofScope path (ds ++ [d])) = scopes.map (ofScope path ds) :=
        List.map_congr_left fun n hn => ofScope_concat_of_ne fun e => hscope (e ▸ hn)
      have hsame : (ofScope path ds d.scope).scope = d.scope := rfl
      rw [if_pos hsame, if_pos List.mem_cons_self, List.map_cons, hothers]
      simp [ofScope, List.filter_append]
    · have hkept : ofScope path (ds ++ [d]) scope = ofScope path ds scope := ofScope_concat_of_ne (Ne.symm heq)
      have hrest := add_map_ofScope path d hnodup fun hmem =>
        hnew (List.not_mem_cons_of_ne_of_not_mem (Ne.symm heq) hmem)
      have hsame : (ofScope path ds scope).scope = scope := rfl
      rw [hsame, if_neg heq, hrest, ← hkept, ← List.map_cons]
      by_cases hmem : d.scope ∈ scopes <;> simp [hmem, Ne.symm heq]

/-- Definitions that are added one after the other: a file for each namespace, in the order in which the namespaces first occur,
with the definitions of that namespace in their order. -/
theorem foldl_add (path : Namespace → String) (ds : List Definition) :
    ds.foldl (fun gs d => add path d gs) [] = (ds.map (·.scope)).eraseDups.map (ofScope path ds) := by
  induction ds using List.reverseRecOn with
  | nil => rfl
  | append_singleton ds d ih =>
    have hnew : d.scope ∉ (ds.map (·.scope)).eraseDups → ds.filter (·.scope = d.scope) = [] := by
      intro hmem
      rw [List.mem_eraseDups, List.mem_map] at hmem
      rw [List.filter_eq_nil_iff]
      exact fun x hx heq => hmem ⟨x, hx, of_decide_eq_true heq⟩
    rw [List.foldl_append, List.foldl_cons, List.foldl_nil, ih, add_map_ofScope path d (eraseDups_nodup _) hnew,
      List.map_append, List.map_singleton, eraseDups_concat]

end FileGroup

/-- Files share out definitions as a layout asks: all to one file, one to each, or to each namespace its own. -/
def OutputLayout.Shares (ds : List Definition) (gs : List FileGroup) : OutputLayout → Prop
  | .oneFile => gs.map (·.definitions) = [ds]
  | .perDefinition => gs.map (·.definitions) = ds.map ([·])
  | .perNamespace =>
    gs.map (·.scope) = (ds.map (·.scope)).eraseDups ∧ ∀ g ∈ gs, g.definitions = ds.filter (·.scope = g.scope)

/-- The files together have every definition once. -/
theorem OutputLayout.Shares.perm {layout : OutputLayout} {ds : List Definition} {gs : List FileGroup} (h : layout.Shares ds gs) :
    (gs.flatMap (·.definitions)).Perm ds := by
  rw [List.flatMap_def]
  cases layout with
  | oneFile =>
    have h : gs.map (·.definitions) = [ds] := h
    rw [h, List.flatten_singleton]
  | perDefinition =>
    have h : gs.map (·.definitions) = ds.map ([·]) := h
    rw [h, ← List.flatMap_def, List.flatMap_singleton']
  | perNamespace =>
    obtain ⟨hscopes, hown⟩ := h
    have hgroups : gs.map (·.definitions) = (ds.map (·.scope)).eraseDups.map fun n => ds.filter (·.scope = n) := by
      rw [← hscopes, List.map_map]
      exact List.map_congr_left hown
    rw [hgroups, ← List.flatMap_def]
    exact flatMap_filter_perm Definition.scope (eraseDups_nodup _) fun d hd => List.mem_eraseDups.2 (List.mem_map_of_mem hd)

/-- The files share the definitions by the layout of the target. -/
theorem Target.groups_shares (t : Target) (env : Env) : t.layout.Shares env.schema.definitions (t.groups env) := by
  unfold groups
  cases t.layout with
  | oneFile => rfl
  | perDefinition => exact List.map_map
  | perNamespace =>
    dsimp only
    rw [FileGroup.foldl_add]
    refine ⟨?_, fun g hg => ?_⟩
    · rw [List.map_map]
      exact List.map_id _
    · obtain ⟨scope, _, rfl⟩ := List.mem_map.1 hg
      rfl

/-! ## Writing a file -/

/-- What a target is asked for while a file is written, and its answer. -/
structure Emission where
  state : FileState
  definition : Definition
  code : Code

namespace Emission

/-- The state of a file after some definitions. -/
def stateAfter (scope : Namespace) (es : List Emission) (current : Namespace) : FileState where
  scope := scope
  current := current
  imports := (es.flatMap (·.code.imports)).foldl (fun known item => insertSorted item known) []
  emitted := es.length
  declared := es.map (·.definition.qualifiedName)

/-- The namespace of the last definition. -/
def lastScope : Namespace → List Emission → Namespace
  | n, [] => n
  | _, e :: es => lastScope e.definition.scope es

/-- The code of some definitions, with the moves between their namespaces. -/
def written (t : Target) (env : Env) : Namespace → List Emission → Code
  | _, [] => []
  | n, e :: es =>
    t.move env { source := n, target := e.definition.scope } ++ e.code ++ written t env e.definition.scope es

end Emission

open Emission

/-- Imports are put into their sorted list one by one. -/
theorem FileState.addImports_eq : ∀ (items : List String) (s : FileState),
    s.addImports items = { s with imports := items.foldl (fun known item => insertSorted item known) s.imports }
  | [], _ => rfl
  | item :: items, s => addImports_eq items (s.addImport item)

namespace Target

variable (t : Target) (env : Env)

/-- The target was asked for some definitions one after the other, and told how many and which were before, what they import, and
in which namespace it is. -/
def Asked (scope : Namespace) (before es : List Emission) : Prop :=
  ∀ done e rest, es = done ++ e :: rest →
    e.state = stateAfter scope (before ++ done) e.definition.scope ∧ t.define env e.state e.definition = .ok e.code

variable {t env} {scope : Namespace} {before : List Emission}

theorem asked_nil : t.Asked env scope before [] := by
  intro done e rest h
  exact absurd h.symm (List.append_ne_nil_of_right_ne_nil _ (List.cons_ne_nil _ _))

/-- The emissions of a file are asked for one after the other: each from the state that those before it have left. -/
theorem asked_cons {e : Emission} {es : List Emission} : t.Asked env scope before (e :: es) ↔
    (e.state = stateAfter scope before e.definition.scope ∧ t.define env e.state e.definition = .ok e.code) ∧
      t.Asked env scope (before ++ [e]) es := by
  constructor
  · intro h
    refine ⟨?_, fun done e' rest heq => ?_⟩
    · have hfirst := h [] e es rfl
      rwa [List.append_nil] at hfirst
    · have hlater := h (e :: done) e' rest (by rw [heq, List.cons_append])
      rwa [List.append_cons] at hlater
  · rintro ⟨hfirst, hlater⟩ done e' rest heq
    cases done with
    | nil =>
      obtain ⟨rfl, rfl⟩ := List.cons.inj heq
      rwa [List.append_nil]
    | cons d done =>
      obtain ⟨rfl, rfl⟩ := List.cons.inj heq
      rw [List.append_cons]
      exact hlater done e' rest rfl

/-- One definition more. -/
theorem addDefinition_eq_ok_iff {b b' : Body} {d : Definition} (hb : b.state = stateAfter scope before b.state.current) :
    t.addDefinition env b d = .ok b' ↔ ∃ code, t.define env (stateAfter scope before d.scope) d = .ok code ∧
      b' = {
        state := stateAfter scope (before ++ [⟨stateAfter scope before d.scope, d, code⟩]) d.scope
        scope := d.scope
        code := b.code ++ (t.move env { source := b.scope, target := d.scope } ++ code) } := by
  have hstate : { b.state with current := d.scope } = stateAfter scope before d.scope := by
    rw [hb]
    rfl
  unfold addDefinition
  rw [hstate, bind_eq_ok]
  refine exists_congr fun code => and_congr_right fun _ => ?_
  rw [pure_eq_ok, eq_comm, List.append_assoc, FileState.addImports_eq]
  simp [stateAfter, FileState.declare]

/-- All definitions of a file. -/
theorem foldlM_addDefinition_eq_ok_iff : ∀ {ds : List Definition} (before : List Emission) {b b' : Body},
    b.state = stateAfter scope before b.state.current →
      (ds.foldlM (t.addDefinition env) b = .ok b' ↔ ∃ es, t.Asked env scope before es ∧ es.map (·.definition) = ds ∧
        b' = {
          state := stateAfter scope (before ++ es) (lastScope b.state.current es)
          scope := lastScope b.scope es
          code := b.code ++ written t env b.scope es })
  | [], before, b, b', hb => by
    rw [List.foldlM_nil, pure_eq_ok]
    constructor
    · rintro rfl
      refine ⟨[], asked_nil, rfl, ?_⟩
      rw [List.append_nil, lastScope, ← hb, lastScope, written, List.append_nil]
    · rintro ⟨es, -, hes, rfl⟩
      obtain rfl := List.map_eq_nil_iff.1 hes
      rw [List.append_nil, lastScope, ← hb, lastScope, written, List.append_nil]
  -- the first definition is added to the emissions that are behind, and the induction goes on with the others
  | d :: ds, before, b, b', hb => by
    rw [List.foldlM_cons, bind_eq_ok]
    constructor
    · rintro ⟨b₁, hfirst, hrest⟩
      obtain ⟨code, hcode, rfl⟩ := (addDefinition_eq_ok_iff hb).1 hfirst
      obtain ⟨es, hasked, rfl, rfl⟩ := (foldlM_addDefinition_eq_ok_iff _ rfl).1 hrest
      refine ⟨⟨stateAfter scope before d.scope, d, code⟩ :: es, asked_cons.2 ⟨⟨rfl, hcode⟩, hasked⟩, rfl, ?_⟩
      simp only [List.append_assoc, List.singleton_append, lastScope, written]
      rfl
    · rintro ⟨es, hasked, hds, rfl⟩
      obtain ⟨e, es, rfl, rfl, rfl⟩ := List.map_eq_cons_iff.1 hds
      obtain ⟨⟨hstate, hcode⟩, hasked⟩ := asked_cons.1 hasked
      rw [hstate] at hcode
      have he : (⟨stateAfter scope before e.definition.scope, e.definition, e.code⟩ : Emission) = e := by rw [← hstate]
      refine ⟨_, (addDefinition_eq_ok_iff hb).2 ⟨e.code, hcode, rfl⟩, ?_⟩
      rw [he]
      refine (foldlM_addDefinition_eq_ok_iff _ rfl).2 ⟨es, hasked, rfl, ?_⟩
      simp only [List.append_assoc, List.singleton_append, lastScope, written]
      rfl

/-- The body of a file is what the target answers about its definitions, asked for each in turn, with the moves from namespace to
namespace and back to the root. -/
theorem body_eq_ok_iff {g : FileGroup} {b : Body} :
    t.body env g = .ok b ↔ ∃ es, t.Asked env g.scope [] es ∧ es.map (·.definition) = g.definitions ∧
      b = {
        state := stateAfter g.scope es (lastScope g.scope es)
        scope := lastScope {} es
        code := written t env {} es ++ t.move env { source := lastScope {} es, target := {} } } := by
  unfold body
  rw [bind_eq_ok]
  constructor
  · rintro ⟨b₁, hfold, hb⟩
    obtain ⟨es, hasked, hdefinitions, rfl⟩ := (foldlM_addDefinition_eq_ok_iff [] rfl).1 hfold
    rw [pure_eq_ok] at hb
    exact ⟨es, hasked, hdefinitions, hb.symm⟩
  · rintro ⟨es, hasked, hdefinitions, rfl⟩
    exact ⟨_, (foldlM_addDefinition_eq_ok_iff [] rfl).2 ⟨es, hasked, hdefinitions, rfl⟩, rfl⟩

end Target

/-! ## All files of a run -/

/-- A file of a run: what goes into it, what its target was asked for, and the file. -/
structure FileRun where
  group : FileGroup
  emissions : List Emission
  file : OutputFile

namespace Target

variable {t : Target} {env : Env}

/-- A file was written from the answers of its target about its definitions. -/
structure Wrote (t : Target) (env : Env) (r : FileRun) : Prop where
  asked : t.Asked env r.group.scope [] r.emissions
  definitions : r.emissions.map (·.definition) = r.group.definitions
  path : r.file.path = r.group.path
  contents : ∃ header footer,
    t.header env (stateAfter r.group.scope r.emissions (lastScope r.group.scope r.emissions)) = .ok header ∧
    t.footer env (stateAfter r.group.scope r.emissions (lastScope r.group.scope r.emissions)) = .ok footer ∧
    r.file.contents = Writer.render t.indentUnit (header ++ [.raw (Writer.render t.indentUnit
      (written t env {} r.emissions ++ t.move env { source := lastScope {} r.emissions, target := {} }))] ++ footer)

/-- A file is rendered if there are emissions that write it. -/
theorem renderFile_eq_ok_iff {g : FileGroup} {file : OutputFile} :
    t.renderFile env g = .ok file ↔ ∃ es, t.Wrote env ⟨g, es, file⟩ := by
  unfold renderFile
  simp only [bind_eq_ok, pure_eq_ok, body_eq_ok_iff]
  constructor
  · rintro ⟨b, ⟨es, hasked, hdefinitions, rfl⟩, header, hheader, footer, hfooter, rfl⟩
    exact ⟨es, hasked, hdefinitions, rfl, header, footer, hheader, hfooter, rfl⟩
  · rintro ⟨es, hasked, hdefinitions, hpath, header, footer, hheader, hfooter, hcontents⟩
    refine ⟨_, ⟨es, hasked, hdefinitions, rfl⟩, header, hheader, footer, hfooter, ?_⟩
    rw [← hcontents, ← hpath]

/-- The files are rendered if there is a run for each of them. -/
theorem mapM_renderFile_eq_ok_iff : ∀ {gs : List FileGroup} {files : List OutputFile},
    gs.mapM (t.renderFile env) = .ok files ↔
      ∃ runs : List FileRun, runs.map (·.group) = gs ∧ runs.map (·.file) = files ∧ ∀ r ∈ runs, t.Wrote env r
  | [], files => by
    rw [List.mapM_nil, pure_eq_ok]
    constructor
    · rintro rfl
      exact ⟨[], rfl, rfl, fun r hr => absurd hr List.not_mem_nil⟩
    · rintro ⟨runs, hgroups, rfl, -⟩
      rw [List.map_eq_nil_iff.1 hgroups, List.map_nil]
  | g :: gs, files => by
    simp only [List.mapM_cons, bind_eq_ok, pure_eq_ok, mapM_renderFile_eq_ok_iff, renderFile_eq_ok_iff]
    constructor
    · rintro ⟨file, ⟨es, hwrote⟩, files, ⟨runs, rfl, rfl, hruns⟩, rfl⟩
      exact ⟨⟨g, es, file⟩ :: runs, rfl, rfl, List.forall_mem_cons.2 ⟨hwrote, hruns⟩⟩
    · rintro ⟨runs, hgroups, rfl, hruns⟩
      obtain ⟨r, runs, rfl, rfl, rfl⟩ := List.map_eq_cons_iff.1 hgroups
      obtain ⟨hwrote, hruns⟩ := List.forall_mem_cons.1 hruns
      exact ⟨r.file, ⟨r.emissions, hwrote⟩, runs.map (·.file), ⟨runs, rfl, rfl, hruns⟩, rfl⟩

/-- A schema that keeps all rules is rendered if its target answers whatever it is asked, and what is asked is known. -/
theorem render_eq_ok_iff {s : Schema} {options : Options} {files : List OutputFile} :
    t.render s options = .ok files ↔ s.validate = .ok () ∧
      ∃ runs : List FileRun, runs.map (·.group) = t.groups (t.env s options) ∧ (∀ r ∈ runs, t.Wrote (t.env s options) r) ∧
        files = runs.map (·.file) ++ t.companions (t.env s options) (runs.map (·.file)) := by
  unfold render
  cases hvalid : s.validate with
  | error e => simp
  | ok =>
    simp only [bind_eq_ok, pure_eq_ok, mapM_renderFile_eq_ok_iff, true_and]
    constructor
    · rintro ⟨rendered, ⟨runs, hgroups, rfl, hruns⟩, rfl⟩
      exact ⟨runs, hgroups, hruns, rfl⟩
    · rintro ⟨runs, hgroups, hruns, rfl⟩
      exact ⟨_, ⟨runs, hgroups, rfl, hruns⟩, rfl⟩

/-- Over all files, the target is asked for the definitions of the schema, each once. -/
theorem emissions_perm {runs : List FileRun} (hgroups : runs.map (·.group) = t.groups env)
    (hruns : ∀ r ∈ runs, t.Wrote env r) :
    ((runs.flatMap (·.emissions)).map (·.definition)).Perm env.schema.definitions := by
  have hgroup : ∀ r ∈ runs, r.emissions.map (·.definition) = r.group.definitions := fun r hr => (hruns r hr).definitions
  have hall := (t.groups_shares env).perm
  rw [← hgroups, List.flatMap_map] at hall
  rw [List.map_flatMap, List.flatMap_congr hgroup]
  exact hall

end Target

/-! ## The kinds of definition -/

/-- The code of an emission is what the function for the kind of its definition gives in its state. -/
structure Target.Called (t : Target) (env : Env) (e : Emission) : Prop where
  enum : ∀ i body, e.definition = .enum i body → t.enumCode env e.state body = .ok e.code
  struct : ∀ i body, e.definition = .struct i body → body.fixed = true → t.structCode env e.state i body = .ok e.code
  table : ∀ i body, e.definition = .struct i body → body.fixed = false → t.tableCode env e.state i body = .ok e.code

/-- The code of an emission is what the target gives for its definition. -/
theorem Target.called_iff {t : Target} {env : Env} {e : Emission} :
    t.Called env e ↔ t.define env e.state e.definition = .ok e.code := by
  constructor
  · intro h
    cases hd : e.definition with
    | enum i body => exact h.enum i body hd
    | struct i body =>
      rw [Target.define]
      split
      next hfixed => exact h.struct i body hd hfixed
      next htable => exact h.table i body hd (Bool.eq_false_iff.2 htable)
  · intro h
    refine ⟨fun i body hd => ?_, fun i body hd hfixed => ?_, fun i body hd htable => ?_⟩
    · rwa [hd] at h
    · rwa [hd, Target.define, if_pos hfixed] at h
    · rwa [hd, Target.define, if_neg (Bool.eq_false_iff.1 htable)] at h

/-- The definitions of a schema that are not written elsewhere are shared out to files as the layout asks, none lost and none twice. A
run asks the target for each of them once, file by file, by the function for its kind, and tells it how many went into the file
before. -/
theorem Target.definitions_written_once (t : Target) (s : Schema) (options : Options) :
    s.definitions.Pairwise Definition.Before ∧ (∀ d, d ∈ s.definitions ↔ d.At s ∧ d.generated = false) ∧
    t.layout.Shares s.definitions (t.groups (t.env s options)) ∧
    ((t.groups (t.env s options)).flatMap (·.definitions)).Perm s.definitions ∧
    ∀ files, t.render s options = .ok files ↔ s.validate = .ok () ∧ ∃ runs : List FileRun,
      runs.map (·.group) = t.groups (t.env s options) ∧
      (∀ r ∈ runs, t.Wrote (t.env s options) r ∧
        ∀ done e rest, r.emissions = done ++ e :: rest → e.state.emitted = done.length ∧ t.Called (t.env s options) e) ∧
      ((runs.flatMap (·.emissions)).map (·.definition)).Perm s.definitions ∧
      files = runs.map (·.file) ++ t.companions (t.env s options) (runs.map (·.file)) := by
  have hshares := t.groups_shares (t.env s options)
  refine ⟨s.definitions_ascending, fun _ => Schema.mem_definitions_iff, hshares, hshares.perm, fun files => ?_⟩
  rw [render_eq_ok_iff]
  refine and_congr_right fun _ => exists_congr fun runs => and_congr_right fun hgroups => ?_
  constructor
  · rintro ⟨hruns, hfiles⟩
    refine ⟨fun r hr => ⟨hruns r hr, fun done e rest hes => ?_⟩, emissions_perm hgroups hruns, hfiles⟩
    obtain ⟨hstate, hcode⟩ := (hruns r hr).asked done e rest hes
    refine ⟨?_, called_iff.2 hcode⟩
    rw [hstate]
    rfl
  · rintro ⟨hruns, _, hfiles⟩
    exact ⟨fun r hr => (hruns r hr).1, hfiles⟩

/-- Two namespaces that take turns, and a definition that is written elsewhere. -/
def turnsDoc : SchemaDoc where
  enums := [
    { name := "A", scope := "x", underlying := some "ubyte", values := [{ name := "V" }] },
    { name := "B", scope := "y", underlying := some "ubyte", values := [{ name := "V" }] },
    { name := "C", scope := "x", underlying := some "ubyte", values := [{ name := "V" }] },
    { name := "D", scope := "x", underlying := some "ubyte", values := [{ name := "V" }], generated := true }]
  structs := [
    { name := "T", scope := "y", fields := [{ name := "c", type := "x.C" }] },
    { name := "S", scope := "x", fixed := true, fields := [{ name := "n", type := "int" }] }]

/-- Definitions of two namespaces in turns: each file gets those of its namespace, in order. -/
theorem turnsDoc_written_once : ∃ s files, Schema.ofDocument turnsDoc = .ok s ∧ (CSharp.target {}).render s {} = .ok files ∧
    ∃ runs : List FileRun, files = runs.map (·.file) ∧
      (runs.map fun r => r.emissions.map (·.definition.name)) = [["A", "C", "S"], ["B", "T"]] ∧
      ∀ r ∈ runs, ∀ done e rest, r.emissions = done ++ e :: rest →
        e.state.emitted = done.length ∧ (CSharp.target {}).Called ((CSharp.target {}).env s {}) e := by
  obtain ⟨s, hs, hseen⟩ := Schema.exists_ofDocument turnsDoc
    (fun s => ((CSharp.target {}).groups ((CSharp.target {}).env s {})).map (·.definitions.map (·.name)))
    [["A", "C", "S"], ["B", "T"]] (by decide +kernel)
  obtain ⟨names, declared, hloaded⟩ := Schema.ofDocument_loaded hs
  obtain ⟨files, hfiles, _⟩ := (Language.csharp.target_total {} hloaded.closed).renders hloaded.valid
  obtain ⟨_, runs, hgroups, hruns, _, hout⟩ := ((Target.definitions_written_once (CSharp.target {}) s {}).2.2.2.2 files).1 hfiles
  refine ⟨s, files, hs, hfiles, runs, hout.trans (List.append_nil _), ?_, fun r hr => (hruns r hr).2⟩
  have hnames : ∀ r ∈ runs, r.emissions.map (·.definition.name) = r.group.definitions.map (·.name) := by
    intro r hr
    rw [← (hruns r hr).1.definitions, List.map_map]
    rfl
  rw [List.map_congr_left hnames, ← hseen, ← hgroups, List.map_map]
  rfl

end FlatSchema

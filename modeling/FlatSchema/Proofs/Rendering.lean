import FlatSchema.Generation
import FlatSchema.Proofs.Total.CSharp
import FlatSchema.Proofs.Total.Fbs
import FlatSchema.Proofs.Total.Go
import FlatSchema.Proofs.Total.JsonSchema
import FlatSchema.Proofs.Total.Lua
import FlatSchema.Proofs.Total.Python

/-!
# Rendering always succeeds

A schema that a document gives can be rendered for every language and with all options. The files of a target hold the
definitions of the schema and no others, so that rendering asks the target only about these (`Target.Total`). That the target
answers is known from the lemmas about each language.
-/

namespace FlatSchema

/-! ## Files and definitions -/

namespace FileGroup

variable {path : Namespace → String} {x : Definition}

/-- A definition is in one of some files. -/
def Holds (gs : List FileGroup) (x : Definition) : Prop := ∃ g ∈ gs, x ∈ g.definitions

theorem holds_cons {g : FileGroup} {gs : List FileGroup} : Holds (g :: gs) x ↔ x ∈ g.definitions ∨ Holds gs x := by
  simp only [Holds, List.mem_cons, or_and_right, exists_or, exists_eq_left]

/-- Adding a definition to the files adds it and nothing else. -/
theorem holds_add {d : Definition} : ∀ {gs : List FileGroup}, Holds (add path d gs) x ↔ Holds gs x ∨ x = d
  | [] => by simp [add, Holds]
  | g :: rest => by
    unfold add
    split
    · simp only [holds_cons, List.mem_append, List.mem_singleton, or_right_comm]
    · simp only [holds_cons, holds_add, or_assoc]

/-- Spreading definitions over files adds all of them. -/
theorem holds_foldl : ∀ {ds : List Definition} {gs : List FileGroup},
    Holds (ds.foldl (fun gs d => add path d gs) gs) x ↔ Holds gs x ∨ x ∈ ds
  | [], gs => by simp
  | d :: ds, gs => by
    rw [List.foldl_cons, holds_foldl, holds_add, List.mem_cons, or_assoc]

end FileGroup

namespace Target

variable {t : Target} {env : Env}

/-- The files of a target hold the definitions of the schema. -/
theorem holds_groups {x : Definition} : FileGroup.Holds (t.groups env) x ↔ x ∈ env.schema.definitions := by
  unfold groups
  cases t.layout with
  | oneFile => simp [FileGroup.Holds]
  | perDefinition =>
    constructor
    · rintro ⟨g, hg, hx⟩
      obtain ⟨d, hd, rfl⟩ := List.mem_map.1 hg
      rw [List.mem_singleton.1 hx]
      exact hd
    · intro hx
      exact ⟨_, List.mem_map_of_mem hx, List.mem_singleton_self x⟩
  | perNamespace =>
    show FileGroup.Holds (env.schema.definitions.foldl _ []) x ↔ _
    rw [FileGroup.holds_foldl]
    simp [FileGroup.Holds]

/-! ## Targets that always answer -/

/-- A target gives a result whenever it is asked about the schema. -/
structure Total (t : Target) (env : Env) : Prop where
  typeName : ∀ type, env.schema.Mentions type → Returns (t.typeName env type)
  header : ∀ state, Returns (t.header env state)
  define : ∀ state d, d.Within env.schema → Returns (t.define env state d)
  footer : ∀ state, Returns (t.footer env state)
  columns : ∀ d, d.Within env.schema → Returns (t.columns env d)

/-- A file of definitions of the schema is rendered: its body, then its header and its footer. -/
theorem Total.returns_renderFile (h : t.Total env) {g : FileGroup} (hg : ∀ d ∈ g.definitions, d.Within env.schema) :
    Returns (t.renderFile env g) := by
  unfold renderFile body
  refine Returns.bind (.map (.foldlM fun d hd b => ?_)) fun b _ => ?_
  · unfold addDefinition
    exact (h.define _ d (hg d hd)).map
  · refine (h.header _).bind fun header _ => ?_
    exact (h.footer _).map

/-- A schema is rendered, and the file of every definition is among the files. -/
def Renders (t : Target) (s : Schema) (options : Options) : Prop :=
  ∃ files, t.render s options = .ok files ∧
    ∀ d ∈ s.definitions, ∃ g ∈ t.groups (t.env s options), d ∈ g.definitions ∧
      ∃ file ∈ files, t.renderFile (t.env s options) g = .ok file

/-- A valid schema is rendered by a target that always answers. -/
theorem Total.renders {s : Schema} {options : Options} (h : t.Total (t.env s options)) (hvalid : s.validate = .ok ()) :
    t.Renders s options := by
  have hfiles : Returns ((t.groups (t.env s options)).mapM (t.renderFile (t.env s options))) := by
    refine .mapM fun g hg => h.returns_renderFile fun d hd => ?_
    exact Schema.definitions_within d (holds_groups.1 ⟨g, hg, hd⟩)
  obtain ⟨files, hfiles⟩ := hfiles
  refine ⟨files ++ t.companions (t.env s options) files, ?_, ?_⟩
  · unfold Target.render
    rw [hvalid]
    exact bind_eq_ok.2 ⟨files, hfiles, rfl⟩
  · intro d hd
    have hheld : FileGroup.Holds (t.groups (t.env s options)) d := holds_groups.2 hd
    obtain ⟨g, hg, hmem⟩ := hheld
    obtain ⟨file, hfile, hrender⟩ := mapM_mem_of_mem hfiles g hg
    exact ⟨g, hg, hmem, file, List.mem_append_left _ hfile, hrender⟩

end Target

/-- Every language answers about a closed schema. -/
theorem Language.target_total (language : Language) (options : Options) {env : Env} (hs : env.schema.Closed) :
    (language.target options).Total env := by
  cases language with
  | python =>
    exact ⟨fun _ ht => Python.returns_typeName (hs.found_innermost ht), fun _ => .ok _,
      fun state _ hd => Python.returns_define options hs state hd, fun _ => .ok _, fun _ _ => .ok _⟩
  | go =>
    exact ⟨fun _ ht => Go.returns_typeName (hs.found_innermost ht), fun _ => .ok _,
      fun state _ hd => Go.returns_define options hs state hd, fun _ => .ok _, fun _ hd => Go.returns_columns hs hd⟩
  | csharp =>
    exact ⟨fun _ ht => CSharp.returns_atomType (hs.found_innermost ht), fun _ => .ok _,
      fun state _ hd => CSharp.returns_define options hs state hd, fun _ => .ok _, fun _ _ => .ok _⟩
  | lua =>
    exact ⟨fun _ ht => Lua.returns_atomName (hs.found_innermost ht), fun _ => .ok _,
      fun state _ hd => Lua.returns_define options hs state hd, fun _ => .ok _, fun _ _ => .ok _⟩
  | jsonSchema =>
    exact ⟨fun _ ht => (JsonSchema.returns_typeSchema hs (hs.found_innermost ht)).map, fun _ => .ok _,
      fun state _ hd => JsonSchema.returns_define options hs state hd, fun _ => .ok _, fun _ _ => .ok _⟩
  | fbs =>
    exact ⟨fun _ ht => Fbs.returns_typeText (hs.found_innermost ht), fun _ => .ok _,
      fun state _ hd => Fbs.returns_define options hs state hd, fun _ => .ok _, fun _ _ => .ok _⟩

end FlatSchema

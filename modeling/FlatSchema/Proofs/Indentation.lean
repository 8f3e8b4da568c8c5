import FlatSchema.Proofs.Emission
import FlatSchema.Proofs.NamespaceMoves
import FlatSchema.Proofs.Shape.CSharp
import FlatSchema.Proofs.Shape.Go
import FlatSchema.Proofs.Shape.Lua
import FlatSchema.Proofs.Shape.Python
import FlatSchema.Proofs.Shape.Text

/-!
# Indentation

Going back from the outermost level is not noticed by a writer, so code that is out of balance would be indented wrongly and nothing
else. It does not occur: every language leaves a writer at the level where it found it and with no line to be continued, whatever the
definition (`Language.whole_define`). Moves between namespaces lead from the depth of one to the depth of the other, and so a file
ends at the outermost level (`Schema.ofDocument_levels`).
-/

namespace FlatSchema

open Code Emission

/-! ## Definitions -/

/-- Code leaves every writer at the level where it found it and with no line to be continued, and goes back from inner levels only. -/
structure Code.Restores (c : Code) : Prop where
  level : ∀ w : Writer, (w.run c).level = w.level
  settled : ∀ w : Writer, (w.run c).pending = false
  inner : ∀ (w : Writer) before after, c = before ++ .dedent :: after → 0 < (w.run before).level

/-- Whole code comes back to its indentation from wherever it starts. -/
theorem Code.Whole.restores {c : Code} (h : Whole c) : c.Restores where
  level w := Writer.level_run (h.even.level? w.level)
  settled := h.settles
  inner w := Writer.level_pos_of_dedent (h.even.level? w.level)

/-- Every language writes definitions of a valid schema as whole code. -/
theorem Language.whole_define (language : Language) (options : Options) {s : Schema} (hs : s.validate = .ok ()) (state : FileState)
    {x : Definition} (hx : x.Within s) :
    Gives Whole ((language.target options).define ((language.target options).env s options) state x) := by
  obtain ⟨henums, hstructs, hmembers, _⟩ := Validity.checkNames_eq_ok.1 (Schema.validate_eq_ok.1 hs).1
  cases language with
  | python =>
    refine Python.whole_define (o := options) rfl state fun i e heq => ?_
    subst heq
    exact hmembers e hx
  | go => exact Go.whole_define options state x
  | csharp => exact CSharp.whole_define options state x
  | lua =>
    refine Lua.whole_define (o := options) rfl state ?_
    cases x with
    | enum i e => exact (henums e hx).1
    | struct i d => exact (hstructs d hx).1
  | jsonSchema => exact JsonSchema.whole_define options state x
  | fbs => exact Fbs.whole_define options state x

/-! ## Moves between namespaces -/

/-- The number of blocks around the definitions of a namespace. -/
def Language.depth : Language → Namespace → Nat
  | .csharp, n => n.components.length
  | _, _ => 0

namespace CSharp

variable {env : Env} (o : Options)

/-- Opening namespaces goes one level deeper for each component. -/
theorem level?_opening : ∀ (components : List String) (n : Nat),
    level? n (components.flatMap ((target o).openScope env)) = some (n + components.length)
  | [], n => rfl
  | c :: components, n => by
    rw [List.flatMap_cons, level?_append_of_eq (level?_openScope o c n), level?_opening components (n + 1), List.length_cons]
    congr 1
    omega

/-- Closing namespaces comes back from as many levels. -/
theorem level?_closing : ∀ (components : List String) (n : Nat),
    level? (n + components.length) (components.flatMap ((target o).closeScope env)) = some n
  | [], n => rfl
  | c :: components, n => by
    rw [List.flatMap_cons, List.length_cons, ← Nat.add_assoc, level?_append_of_eq (level?_closeScope o c _),
      level?_closing components n]

/-- A move closes as many blocks as it leaves and opens as many as it enters. -/
theorem level?_move (m : Transition) :
    level? m.source.components.length ((target o).move env m) = some m.target.components.length := by
  obtain ⟨hsource, htarget⟩ := Namespace.commonLength_le m.source.components m.target.components
  have hclosing : m.closing.length = m.source.components.length - m.common := by
    rw [Transition.closing, List.length_reverse, List.length_drop]
  have hopening : m.opening.length = m.target.components.length - m.common := by
    rw [Transition.opening, List.length_drop]
  have hleave : m.source.components.length = m.common + m.closing.length := by
    rw [hclosing]
    exact (Nat.add_sub_cancel' hsource).symm
  rw [Target.move, hleave, level?_append_of_eq (level?_closing o m.closing m.common), level?_opening, hopening]
  exact congrArg some (Nat.add_sub_cancel' htarget)

/-- A move leaves no line open. -/
theorem calm_move (m : Transition) : Calm ((target o).move env m) := by
  have hopen : ∀ c, Calm ((target o).openScope env c) := by
    intro c
    have hlines : Settles (lines [s!"namespace {env.namer.component c}", "\x7b"]) := (Settles.line (by decide)).after (line _)
    exact (hlines.append_calm (b := [.indent]) fun w h => h).calm
  have hclose : ∀ c, Calm ((target o).closeScope env c) := fun c => ((Settles.line (by decide)).after [.dedent]).calm
  exact .append (.flatMap hclose _) (.flatMap hopen _)

end CSharp

namespace Language

variable (language : Language) (options : Options) (env : Env)

/-- Only C# writes something when it moves. -/
theorem move_eq_nil (h : language ≠ .csharp) (m : Transition) : (language.target options).move env m = [] := by
  cases language with
  | csharp => exact absurd rfl h
  | python | go | lua | jsonSchema | fbs =>
    refine List.append_eq_nil_iff.2 ⟨List.flatMap_eq_nil_iff.2 ?_, List.flatMap_eq_nil_iff.2 ?_⟩ <;> exact fun _ _ => rfl

/-- A move leads from the depth of one namespace to the depth of the other. -/
theorem level?_move (m : Transition) :
    level? (language.depth m.source) ((language.target options).move env m) = some (language.depth m.target) := by
  by_cases h : language = .csharp
  · subst h
    exact CSharp.level?_move options m
  · have hdepth : ∀ n, language.depth n = 0 := by
      intro n
      cases language with
      | csharp => exact absurd rfl h
      | python | go | lua | jsonSchema | fbs => rfl
    rw [move_eq_nil language options env h m, hdepth, hdepth]
    rfl

/-- In every language a move leaves no line open. -/
theorem calm_move (m : Transition) : Calm ((language.target options).move env m) := by
  by_cases h : language = .csharp
  · subst h
    exact CSharp.calm_move options m
  · rw [move_eq_nil language options env h m]
    exact .nil

/-- Definitions one after the other, with the moves between them: the invariant is that the writer is as deep as the namespace. -/
theorem level?_written : ∀ {es : List Emission} (n : Namespace), (∀ e ∈ es, Even e.code) →
    level? (language.depth n) (written (language.target options) env n es) = some (language.depth (lastScope n es))
  | [], _, _ => rfl
  | e :: es, n, h => by
    obtain ⟨he, hes⟩ := List.forall_mem_cons.1 h
    have hmove := level?_move language options env { source := n, target := e.definition.scope }
    rw [written, List.append_assoc, level?_append_of_eq hmove, level?_append_of_eq (he.level? _), level?_written _ hes]
    rfl

/-- What is written for definitions leaves no line open. -/
theorem calm_written : ∀ {es : List Emission} (n : Namespace), (∀ e ∈ es, Settles e.code) →
    Calm (written (language.target options) env n es)
  | [], _, _ => .nil
  | e :: es, n, h => by
    obtain ⟨he, hes⟩ := List.forall_mem_cons.1 h
    exact .append (.append (calm_move language options env _) he.calm) (calm_written _ hes)

/-- The way back from the last namespace ends at the outermost level. -/
theorem level?_body {es : List Emission} (h : ∀ e ∈ es, Even e.code) :
    level? 0 (written (language.target options) env {} es ++
      (language.target options).move env { source := lastScope {} es, target := {} }) = some 0 := by
  have hroot : language.depth {} = 0 := by cases language <;> rfl
  have hthere := level?_written language options env {} h
  have hback := level?_move language options env { source := lastScope {} es, target := {} }
  rw [hroot] at hthere hback
  rw [level?_append_of_eq hthere]
  exact hback

/-- The body of a file leaves no line open. -/
theorem calm_body {es : List Emission} (h : ∀ e ∈ es, Settles e.code) :
    Calm (written (language.target options) env {} es ++
      (language.target options).move env { source := lastScope {} es, target := {} }) :=
  .append (calm_written language options env {} h) (calm_move language options env _)

end Language

/-! ## Files -/

/-- The body of a file of definitions of the schema is written. -/
theorem Target.Total.returns_body {t : Target} {env : Env} (h : t.Total env) {g : FileGroup}
    (hg : ∀ d ∈ g.definitions, d.Within env.schema) : Returns (t.body env g) := by
  unfold body
  refine .map (.foldlM fun d hd b => ?_)
  unfold addDefinition
  exact (h.define _ d (hg d hd)).map

/-- In every language the code of a definition leaves a writer at the level where it found it and with no line to be continued, and
never goes back from the outermost level. So does the body of a file, which has the moves between namespaces as well: whichever
definitions are written and in whatever order, the body ends at the outermost level. -/
theorem Schema.ofDocument_levels {doc : SchemaDoc} {s : Schema} (h : Schema.ofDocument doc = .ok s) (language : Language)
    (options : Options) :
    let t := language.target options
    (∀ (state : FileState) (d : Definition), d.Within s →
      ∃ code, t.define (t.env s options) state d = .ok code ∧ code.Restores) ∧
    ∀ g : FileGroup, (∀ d ∈ g.definitions, d.Within s) → ∃ b, t.body (t.env s options) g = .ok b ∧
      (Writer.run { unit := t.indentUnit } b.code).level = 0 ∧ (Writer.run { unit := t.indentUnit } b.code).pending = false ∧
      ∀ before after, b.code = before ++ .dedent :: after → 0 < (Writer.run { unit := t.indentUnit } before).level := by
  intro t
  obtain ⟨names, declared, h⟩ := Schema.ofDocument_loaded h
  have htotal : t.Total (t.env s options) := language.target_total options h.closed
  have hwhole : ∀ state d, d.Within s → Gives Whole (t.define (t.env s options) state d) :=
    fun state d hd => language.whole_define options h.valid state hd
  refine ⟨fun state d hd => ?_, fun g hg => ?_⟩
  · obtain ⟨code, hcode⟩ := htotal.define state d hd
    exact ⟨code, hcode, (hwhole state d hd code hcode).restores⟩
  · obtain ⟨b, hb⟩ := htotal.returns_body hg
    obtain ⟨es, hasked, hdefinitions, rfl⟩ := Target.body_eq_ok_iff.1 hb
    have hes : ∀ e ∈ es, Whole e.code := by
      intro e he
      obtain ⟨done, rest, rfl⟩ := List.append_of_mem he
      have hd : e.definition ∈ g.definitions := hdefinitions ▸ List.mem_map_of_mem he
      exact hwhole _ _ (hg _ hd) _ (hasked done e rest rfl).2
    have hlevel := language.level?_body options (t.env s options) fun e he => (hes e he).even
    have hcalm := language.calm_body options (t.env s options) fun e he => (hes e he).settles
    exact ⟨_, hb, Writer.level_run hlevel, hcalm _ rfl, Writer.level_pos_of_dedent hlevel⟩

/-- Two namespaces that take turns in one file: each is opened and closed again and again. -/
theorem turnsDoc_levels : ∃ s b, Schema.ofDocument turnsDoc = .ok s ∧
    s.definitions.map (·.scope.components) = [["x"], ["y"], ["x"], ["y"], ["x"]] ∧
    (CSharp.target {}).body ((CSharp.target {}).env s {}) { path := "", scope := {}, definitions := s.definitions } = .ok b ∧
    (Writer.run { unit := "  " } b.code).level = 0 ∧ (Writer.run { unit := "  " } b.code).pending = false := by
  obtain ⟨s, hs, hscopes⟩ := Schema.exists_ofDocument turnsDoc (fun s => s.definitions.map (·.scope.components))
    [["x"], ["y"], ["x"], ["y"], ["x"]] (by decide +kernel)
  obtain ⟨b, hb, hlevel, hpending, _⟩ := (Schema.ofDocument_levels hs .csharp {}).2
    { path := "", scope := {}, definitions := s.definitions } Schema.definitions_within
  exact ⟨s, b, hs, hscopes, hb, hlevel, hpending⟩

end FlatSchema

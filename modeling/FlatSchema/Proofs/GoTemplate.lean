import FlatSchema.Proofs.CodeShape
import FlatSchema.Proofs.Lookups
import FlatSchema.Proofs.Names
import FlatSchema.Target.GoPackage

/-!
# Templates of Go code

Go code depends on the package that it is written in by the names of definitions alone: a name of another package stands behind the
name of that package and brings its import along. A template is code in which these names are left open (`Template`). Code that is
given for every package is written by a template if it is the template, filled in (`Written`). That it is so is found by instance
search, which follows the way in which a generator puts the code together. Had a generator written the name of a package by hand, or
lost the import of a name, there would be no template.
-/

namespace FlatSchema

@[simp] theorem Phrase.text_append (p q : Phrase) : (p ++ q).text = p.text ++ q.text := rfl

@[simp] theorem Phrase.imports_append (p q : Phrase) : (p ++ q).imports = p.imports ++ q.imports := rfl

theorem Phrase.ext {p q : Phrase} (htext : p.text = q.text) (himports : p.imports = q.imports) : p = q := by
  cases p
  cases q
  subst htext himports
  rfl

namespace Go

/-! ## Words and phrases -/

/-- A piece of a line: text that is the same in every package, the name of a definition, or blanks that align columns. -/
inductive Word
  | text (s : String)
  | ref (scope : Namespace) (name : String)
  | blanks (count : Namespace → Nat)

/-- A word as it is written at a site. -/
def Word.phrase (site : Site) : Word → Phrase
  | .text s => s
  | .ref scope name => site.qualify scope name
  | .blanks count => String.ofList (List.replicate (count site.here) ' ')

/-- Words one after the other as they are written at a site. -/
def spell (site : Site) : List Word → Phrase
  | [] => ""
  | w :: ws => w.phrase site ++ spell site ws

/-- Words are spelled one after the other. -/
theorem spell_append (site : Site) (ws ws' : List Word) : spell site (ws ++ ws') = spell site ws ++ spell site ws' := by
  induction ws with
  | nil => exact Phrase.ext String.empty_append.symm rfl
  | cons w ws ih =>
    have hassoc : ∀ p q r : Phrase, p ++ (q ++ r) = p ++ q ++ r := fun p q r =>
      Phrase.ext String.append_assoc.symm (List.append_assoc ..).symm
    rw [List.cons_append, spell, ih, hassoc]
    rfl

theorem spell_singleton (site : Site) (w : Word) : spell site [w] = w.phrase site :=
  Phrase.ext String.append_empty (List.append_nil _)

/-- A namespace of some definition of the schema. -/
class Known (env : Env) (scope : Namespace) : Prop where
  found : ∃ ref name, env.schema.nameAt? ref = some (scope, name)

namespace Known

variable {env : Env}

/-- The namespace of a struct is known. -/
theorem of_struct {d : StructDef} (h : d ∈ env.schema.structs) : Known env d.scope := by
  obtain ⟨i, hi⟩ := List.mem_iff_getElem?.1 h
  exact ⟨.struct i, d.name, Option.map_eq_some_iff.2 ⟨d, hi, rfl⟩⟩

/-- The namespace of an enum is known. -/
theorem of_enum {e : EnumDef} (h : e ∈ env.schema.enums) : Known env e.scope := by
  obtain ⟨i, hi⟩ := List.mem_iff_getElem?.1 h
  exact ⟨.enum i, e.name, Option.map_eq_some_iff.2 ⟨e, hi, rfl⟩⟩

/-- The namespace of the enum of a scalar is known. -/
theorem of_scalarEnum? {t : TypeDesc} {e : EnumDef} (h : env.schema.scalarEnum? t = some e) : Known env e.scope := by
  unfold Schema.scalarEnum? at h
  split at h
  · exact of_enum (Schema.mem_of_enumOf? h)
  · cases h

instance struct_val (d : {d : StructDef // d ∈ env.schema.structs}) : Known env d.1.scope := of_struct d.2

instance enum_val (e : {e : EnumDef // e ∈ env.schema.enums}) : Known env e.1.scope := of_enum e.2

end Known

/-- The names among some words belong to definitions of the schema. -/
def KnownNames (env : Env) (ws : List Word) : Prop := ∀ scope name, Word.ref scope name ∈ ws → Known env scope

/-- A phrase that is given for every package is made of the same words in all of them. -/
class Spelled (env : Env) (p : Namespace → Phrase) : Prop where
  words : ∃ ws, KnownNames env ws ∧ ∀ here, p here = spell ⟨env, here⟩ ws

namespace Spelled

variable {env : Env} {p q : Namespace → Phrase}

theorem of_word {w : Word} (hw : KnownNames env [w]) (h : ∀ here, p here = w.phrase ⟨env, here⟩) : Spelled env p :=
  ⟨[w], hw, fun here => (h here).trans (spell_singleton _ w).symm⟩

instance text {s : String} : Spelled env fun _ => { text := s } := by
  refine of_word (w := .text s) (fun scope name h => ?_) fun _ => rfl
  cases List.mem_singleton.1 h

instance qualify {scope : Namespace} {name : String} [hscope : Known env scope] :
    Spelled env fun here => Site.qualify ⟨env, here⟩ scope name := by
  refine of_word (w := .ref scope name) (fun scope' name' h => ?_) fun _ => rfl
  cases List.mem_singleton.1 h
  exact hscope

/-- Blanks may be as many as the place asks for: they are no names. -/
theorem blanks (count : Namespace → Nat) : Spelled env fun here => { text := String.ofList (List.replicate (count here) ' ') } := by
  refine of_word (w := .blanks count) (fun scope name h => ?_) fun _ => rfl
  cases List.mem_singleton.1 h

instance append [hp : Spelled env p] [hq : Spelled env q] : Spelled env fun here => p here ++ q here := by
  obtain ⟨ws, hknown, hws⟩ := hp.words
  obtain ⟨ws', hknown', hws'⟩ := hq.words
  refine ⟨ws ++ ws', fun scope name h => ?_, fun here => ?_⟩
  · exact (List.mem_append.1 h).elim (hknown scope name) (hknown' scope name)
  · rw [hws here, hws' here, spell_append]

instance ite {c : Prop} [Decidable c] [Spelled env p] [Spelled env q] : Spelled env fun here => if c then p here else q here := by
  split <;> infer_instance

/-- Padding adds blanks only. -/
theorem padded (hp : Spelled env p) (width : Namespace → Nat) : Spelled env fun here => (p here).padded (width here) := by
  have hblanks : Spelled env _ := blanks fun here => width here - (p here).text.length
  have heq : (fun here => (p here).padded (width here)) = fun here => p here ++
      ({ text := String.ofList (List.replicate (width here - (p here).text.length) ' ') } : Phrase) := by
    funext here
    exact Phrase.ext rfl (List.append_nil _).symm
  rw [heq]
  exact append

instance padded_of {width : Nat} [hp : Spelled env p] : Spelled env fun here => (p here).padded width := hp.padded fun _ => width

/-- Phrases with a separator between them. -/
theorem intercalate (separator : String) : ∀ {ps : List (Namespace → Phrase)}, (∀ p ∈ ps, Spelled env p) →
    Spelled env fun here => Phrase.intercalate separator (ps.map (· here))
  | [], _ => text (s := "")
  | [p], h => by
    have hp := h p List.mem_cons_self
    have heq : (fun here => Phrase.intercalate separator ([p].map (· here))) = p := by
      funext here
      exact Phrase.ext rfl (List.append_nil _)
    rw [heq]
    exact hp
  | p :: q :: ps, h => by
    have hp := h p List.mem_cons_self
    have hrest := intercalate separator fun x hx => h x (List.mem_cons_of_mem p hx)
    have heq : (fun here => Phrase.intercalate separator ((p :: q :: ps).map (· here))) = fun here =>
        p here ++ ({ text := separator } : Phrase) ++ Phrase.intercalate separator ((q :: ps).map (· here)) := by
      funext here
      refine Phrase.ext ?_ ?_ <;> simp [Phrase.intercalate]
    rw [heq]
    exact append

end Spelled

/-! ## Templates -/

/-- Code in which the names of definitions are left open. -/
inductive Template
  | empty
  | line (words : List Word)
  | comment (docs : List String)
  | require (item : String)
  | seq (a b : Template)
  | indented (t : Template)

namespace Template

/-- The code of a template at a site. -/
def code (site : Site) : Template → Code
  | empty => []
  | line ws => Code.line (spell site ws)
  | comment docs => Code.comment "// " docs
  | require item => Code.require item
  | seq a b => a.code site ++ b.code site
  | indented t => Code.indented (t.code site)

/-- The lines of a template. -/
def lines : Template → List (List Word)
  | line ws => [ws]
  | seq a b => a.lines ++ b.lines
  | indented t => t.lines
  | _ => []

/-- The imports that a template asks for without a name. -/
def required : Template → List String
  | require item => [item]
  | seq a b => a.required ++ b.required
  | indented t => t.required
  | _ => []

/-- A template with blanks in front of every line. -/
def inset (blanks : String) : Template → Template
  | line ws => line (.text blanks :: ws)
  | seq a b => seq (a.inset blanks) (b.inset blanks)
  | indented t => indented (t.inset blanks)
  | t => t

/-- The code of a template has no place for lines to come. -/
theorem keyless_code (site : Site) (t : Template) : Code.Balanced Step.Keyless (t.code site) := by
  induction t with
  | empty => exact .nil
  | line | comment | require => exact .step rfl trivial
  | seq _ _ iha ihb => exact .append iha ihb
  | indented _ ih => exact .indented ih

theorem even_code (site : Site) (t : Template) : Code.Even (t.code site) := (t.keyless_code site).imp fun _ _ => trivial

/-- Blanks in front of the lines of a template stand in front of those of its code. -/
theorem code_inset (site : Site) (blanks : String) (t : Template) : (t.inset blanks).code site = Code.inset blanks (t.code site) := by
  induction t with
  | empty | line | comment | require => rfl
  | seq a b iha ihb => rw [inset, code, code, iha, ihb, Code.inset_append]
  | indented t ih =>
    rw [inset, code, code, ih]
    simp [Code.indented, Code.inset]

/-- Blanks ask for no imports. -/
theorem required_inset (blanks : String) (t : Template) : (t.inset blanks).required = t.required := by
  induction t with
  | empty | line | comment | require => rfl
  | seq a b iha ihb => rw [inset, required, required, iha, ihb]
  | indented t ih => rw [inset, required, required, ih]

/-- Blanks are words of their own in front of each line. -/
theorem lines_inset (blanks : String) (t : Template) : (t.inset blanks).lines = t.lines.map (.text blanks :: ·) := by
  induction t with
  | empty | line | comment | require => rfl
  | seq a b iha ihb => rw [inset, lines, lines, iha, ihb, List.map_append]
  | indented t ih => rw [inset, lines, lines, ih]

end Template

/-- A template whose names belong to definitions of the schema, and that asks for some fixed imports only without a name. -/
structure Template.Sound (env : Env) (fixed : List String) (t : Template) : Prop where
  known : ∀ ws ∈ t.lines, KnownNames env ws
  required : t.required ⊆ fixed

/-- Blanks keep a template sound. -/
theorem Template.Sound.inset {env : Env} {fixed : List String} {t : Template} (h : t.Sound env fixed) (blanks : String) :
    (t.inset blanks).Sound env fixed where
  known ws hws scope name hname := by
    rw [lines_inset] at hws
    obtain ⟨ws', hws', rfl⟩ := List.mem_map.1 hws
    rcases List.mem_cons.1 hname with hname | hname
    · cases hname
    · exact h.known ws' hws' scope name hname
  required := required_inset blanks t ▸ h.required

/-- Code that is given for every package is a template, filled in. -/
class Written (env : Env) (fixed : List String) (c : Namespace → Code) : Prop where
  template : ∃ t : Template, t.Sound env fixed ∧ ∀ here, c here = t.code ⟨env, here⟩

namespace Written

open Code

variable {env : Env} {fixed : List String} {a b c : Namespace → Code} {p : Namespace → Phrase} {stop : String}

/-- A template without a line. -/
theorem of_unlined {t : Template} (ht : t.lines = []) (hfixed : t.required ⊆ fixed) (h : ∀ here, c here = t.code ⟨env, here⟩) :
    Written env fixed c := by
  refine ⟨t, ⟨fun ws hws => ?_, hfixed⟩, h⟩
  rw [ht] at hws
  exact absurd hws List.not_mem_nil

instance nil : Written env fixed fun _ => [] := of_unlined (t := .empty) rfl (List.nil_subset _) fun _ => rfl

instance line [hp : Spelled env p] : Written env fixed fun here => line (p here) := by
  obtain ⟨ws, hknown, hws⟩ := hp.words
  refine ⟨.line ws, ⟨fun ws' h => ?_, List.nil_subset _⟩, fun here => ?_⟩
  · rw [List.mem_singleton.1 h]
    exact hknown
  · rw [hws here]
    rfl

instance blank : Written env fixed fun _ => blank := inferInstanceAs (Written env fixed fun _ => Code.line "")

instance comment {doc : List String} : Written env fixed fun _ => docs doc :=
  of_unlined (t := .comment doc) rfl (List.nil_subset _) fun _ => rfl

theorem require {item : String} (h : item ∈ fixed) : Written env fixed fun _ => require item :=
  of_unlined (t := .require item) rfl (List.cons_subset.2 ⟨h, List.nil_subset _⟩) fun _ => rfl

instance append [ha : Written env fixed a] [hb : Written env fixed b] : Written env fixed fun here => a here ++ b here := by
  obtain ⟨t, ht, hcode⟩ := ha.template
  obtain ⟨t', ht', hcode'⟩ := hb.template
  refine ⟨.seq t t', ⟨?_, List.append_subset.2 ⟨ht.required, ht'.required⟩⟩, fun here => ?_⟩
  · exact List.forall_mem_append.2 ⟨ht.known, ht'.known⟩
  · rw [hcode here, hcode' here]
    rfl

instance indented [hc : Written env fixed c] : Written env fixed fun here => indented (c here) := by
  obtain ⟨t, ht, hcode⟩ := hc.template
  refine ⟨.indented t, ⟨ht.known, ht.required⟩, fun here => ?_⟩
  rw [hcode here]
  rfl

instance inset {blanks : String} [hc : Written env fixed c] : Written env fixed fun here => inset blanks (c here) := by
  obtain ⟨t, ht, hcode⟩ := hc.template
  refine ⟨t.inset blanks, ht.inset blanks, fun here => ?_⟩
  rw [hcode here, Template.code_inset]

instance nested [Spelled env p] [Written env fixed c] : Written env fixed fun here => nested (p here) (c here) := by
  unfold Code.nested
  infer_instance

instance block [Spelled env p] [Written env fixed c] : Written env fixed fun here => block (p here) (c here) stop := by
  unfold Code.block
  infer_instance

instance braced [Spelled env p] [Written env fixed c] : Written env fixed fun here => braced (p here) (c here) := by
  unfold Code.braced
  infer_instance

instance clause [Spelled env p] [Written env fixed c] : Written env fixed fun here => clause (p here) (c here) := by
  unfold Go.clause
  infer_instance

instance when {condition : Bool} [Written env fixed c] : Written env fixed fun here => when condition (c here) := by
  unfold Code.when
  split <;> infer_instance

instance ite {q : Prop} [Decidable q] [Written env fixed a] [Written env fixed b] :
    Written env fixed fun here => if q then a here else b here := by
  split <;> infer_instance

instance lines_nil : Written env fixed fun _ => lines [] := nil

instance lines_cons {ps : Namespace → List Phrase} [Spelled env p] [Written env fixed fun here => lines (ps here)] :
    Written env fixed fun here => lines (p here :: ps here) := 
  append (a := fun here => Code.line (p here)) (b := fun here => Code.lines (ps here))

/-- Code that is written for the items of a list. -/
theorem flatMap {α : Type} {f : Namespace → α → Code} : ∀ {xs : List α}, (∀ x ∈ xs, Written env fixed fun here => f here x) →
    Written env fixed fun here => xs.flatMap (f here)
  | [], _ => nil
  | x :: xs, h => by
    have hx := h x List.mem_cons_self
    have hxs := flatMap fun y hy => h y (List.mem_cons_of_mem x hy)
    simp only [List.flatMap_cons]
    exact append

instance flatMap_of {α : Type} {xs : List α} {f : Namespace → α → Code} [h : ∀ x, Written env fixed fun here => f here x] :
    Written env fixed fun here => xs.flatMap (f here) := flatMap fun x _ => h x

instance texts {ss : List String} : Written env fixed fun _ => texts ss := by
  have htexts : (fun _ : Namespace => Code.texts ss) = fun _ => ss.flatMap fun (s : String) => Code.line s := by
    funext _
    exact List.map_eq_flatMap
  rw [htexts]
  infer_instance

/-- Pieces of code one after the other. -/
theorem flatten : ∀ {cs : List (Namespace → Code)}, (∀ c ∈ cs, Written env fixed c) →
    Written env fixed fun here => (cs.map (· here)).flatten
  | [], _ => nil
  | c :: cs, h => by
    have hc := h c List.mem_cons_self
    have hcs := flatten fun x hx => h x (List.mem_cons_of_mem c hx)
    simp only [List.map_cons, List.flatten_cons]
    exact append

/-- Balanced code whose lines need no import is the same in every package. -/
theorem of_balanced {c : Code} (h : Balanced (fun s => ∃ text : String, s = .line text) c) : Written env fixed fun _ => c := by
  induction h with
  | nil => exact nil
  | step _ h =>
    obtain ⟨text, rfl⟩ := h
    exact line
  | append _ _ iha ihb => exact append
  | indented _ ih => exact indented

end Written

/-! ## Computations -/

/-- What it says about values that are given for every package that their code and their phrases are filled in. -/
class Varying (α : Type) where
  fills : Env → List String → (Namespace → α) → Prop

namespace Varying

instance (priority := low) plain {α : Type} : Varying α := ⟨fun _ _ a => ∃ x, ∀ here, a here = x⟩

instance phrase : Varying Phrase := ⟨fun env _ => Spelled env⟩

instance list {α : Type} [Varying α] : Varying (List α) :=
  ⟨fun env fixed xs => ∃ as : List (Namespace → α), (∀ here, xs here = as.map (· here)) ∧ ∀ a ∈ as, fills env fixed a⟩

instance pair {α β : Type} [Varying α] [Varying β] : Varying (α × β) :=
  ⟨fun env fixed p => fills env fixed (fun here => (p here).1) ∧ fills env fixed fun here => (p here).2⟩

instance (priority := high) code : Varying Code := ⟨Written⟩

end Varying

/-- Values that are given for every package are filled in. -/
class Filled {α : Type} [Varying α] (env : Env) (fixed : List String) (a : Namespace → α) : Prop where
  fills : Varying.fills env fixed a

/-- A computation that is done for every package fails in all of them alike, or what it gives is filled in. -/
class Uniform {α : Type} [Varying α] (env : Env) (fixed : List String) (x : Namespace → Except GenError α) : Prop where
  cases : (∃ e, ∀ here, x here = .error e) ∨ ∃ a, (∀ here, x here = .ok (a here)) ∧ Varying.fills env fixed a

section

variable {α β : Type} {env : Env} {fixed : List String}

namespace Filled

instance (priority := low) plain {a : α} : Filled env fixed fun _ => a := ⟨a, fun _ => rfl⟩

instance phrase {p : Namespace → Phrase} [h : Spelled env p] : Filled env fixed p := ⟨h⟩

instance code {c : Namespace → Code} [h : Written env fixed c] : Filled env fixed c := ⟨h⟩

instance pair [Varying α] [Varying β] {a : Namespace → α} {b : Namespace → β} [ha : Filled env fixed a] [hb : Filled env fixed b] :
    Filled env fixed fun here => (a here, b here) := ⟨ha.fills, hb.fills⟩

end Filled

instance Spelled.val (p : {p : Namespace → Phrase // Varying.fills env fixed p}) : Spelled env p.1 := p.2

instance Spelled.intercalate_val (ps : {ps : Namespace → List Phrase // Varying.fills env fixed ps}) {separator : String} :
    Spelled env fun here => Phrase.intercalate separator (ps.1 here) := by
  obtain ⟨as, hps, has⟩ := ps.2
  simp only [hps]
  exact Spelled.intercalate separator has

instance Written.val (c : {c : Namespace → Code // Varying.fills env fixed c}) : Written env fixed c.1 := c.2

instance Written.flatten_val (cs : {cs : Namespace → List Code // Varying.fills env fixed cs}) :
    Written env fixed fun here => (cs.1 here).flatten := by
  obtain ⟨as, hcs, has⟩ := cs.2
  simp only [hcs]
  exact Written.flatten has

/-- The first parts of some pairs, one after the other. -/
theorem Written.flatMap_fst {ps : Namespace → List (Code × β)} [Varying β] (h : Varying.fills env fixed ps) :
    Written env fixed fun here => (ps here).flatMap (·.1) := by
  obtain ⟨as, hps, has⟩ := h
  simp only [hps, List.flatMap_map]
  exact Written.flatMap fun a ha => (has a ha).1

/-- Texts that come with code are the same in every package. -/
theorem Varying.map_snd {ps : Namespace → List (Code × String)} (h : Varying.fills env fixed ps) :
    ∃ ss, ∀ here, (ps here).map (·.2) = ss := by
  obtain ⟨as, hps, has⟩ := h
  refine ⟨as.map fun a => (a {}).2, fun here => ?_⟩
  rw [hps, List.map_map]
  refine List.map_congr_left fun a ha => ?_
  obtain ⟨s, hs⟩ := (has a ha).2
  exact (hs here).trans (hs {}).symm

namespace Uniform

variable [Varying α] [Varying β] {x y : Namespace → Except GenError α}

theorem of_eq_ok {a : Namespace → α} (hx : ∀ here, x here = .ok (a here)) (h : Varying.fills env fixed a) : Uniform env fixed x :=
  ⟨.inr ⟨a, hx, h⟩⟩

instance of_ok {a : Namespace → α} [h : Filled env fixed a] : Uniform env fixed fun here => .ok (a here) :=
  of_eq_ok (fun _ => rfl) h.fills

instance of_pure {a : Namespace → α} [Filled env fixed a] : Uniform env fixed fun here => pure (a here) := of_ok

instance of_ite {q : Prop} [Decidable q] [Uniform env fixed x] [Uniform env fixed y] :
    Uniform env fixed fun here => if q then x here else y here := by
  split <;> infer_instance

/-- Steps one after the other: what the first gives is filled from a template, and so is the rest. -/
theorem bind {f : Namespace → α → Except GenError β} (hx : Uniform env fixed x)
    (hf : ∀ a, Varying.fills env fixed a → Uniform env fixed fun here => f here (a here)) :
    Uniform env fixed fun here => x here >>= f here := by
  rcases hx.cases with ⟨e, he⟩ | ⟨a, ha, hfills⟩
  · refine ⟨.inl ⟨e, fun here => ?_⟩⟩
    rw [he here]
    rfl
  · have heq : (fun here => x here >>= f here) = fun here => f here (a here) := by
      funext here
      rw [ha here]
      rfl
    rw [heq]
    exact hf a hfills

-- The property goes into the type of the value, since instances under a binder are not found.
instance of_bind {f : Namespace → α → Except GenError β} [hx : Uniform env fixed x]
    [hf : ∀ a : {a : Namespace → α // Varying.fills env fixed a}, Uniform env fixed fun here => f here (a.1 here)] :
    Uniform env fixed fun here => x here >>= f here := hx.bind fun a ha => hf ⟨a, ha⟩

/-- A step that does not depend on the package gives the same in all of them. -/
theorem bind_const {α : Type} {x : Except GenError α} {f : Namespace → α → Except GenError β}
    (hf : ∀ a, x = .ok a → Uniform env fixed fun here => f here a) : Uniform env fixed fun here => x >>= f here := by
  cases x with
  | error e => exact ⟨.inl ⟨e, fun _ => rfl⟩⟩
  | ok a => exact hf a rfl

instance of_structOf {t : TypeDesc} {f : Namespace → StructDef → Except GenError β}
    [hf : ∀ d : {d : StructDef // d ∈ env.schema.structs}, Uniform env fixed fun here => f here d.1] :
    Uniform env fixed fun here => env.structOf t >>= f here := bind_const fun d hd => hf ⟨d, Env.mem_of_structOf hd⟩

instance of_enumOf {t : TypeDesc} {f : Namespace → EnumDef → Except GenError β}
    [hf : ∀ e : {e : EnumDef // e ∈ env.schema.enums}, Uniform env fixed fun here => f here e.1] :
    Uniform env fixed fun here => env.enumOf t >>= f here :=
  bind_const fun e he => hf ⟨e, Schema.mem_of_enumOf? (Env.enumOf_eq_ok.1 he)⟩

instance of_structAt {i : Nat} {f : Namespace → StructDef → Except GenError β}
    [hf : ∀ d : {d : StructDef // d ∈ env.schema.structs}, Uniform env fixed fun here => f here d.1] :
    Uniform env fixed fun here => env.structAt i >>= f here := by
  refine bind_const fun d hd => hf ⟨d, ?_⟩
  unfold Env.structAt at hd
  split at hd
  next d' hi =>
    cases hd
    exact List.mem_of_getElem? hi
  next => cases hd

/-- A list of computations. -/
theorem mapM {α : Type} {f : Namespace → α → Except GenError β} : ∀ {xs : List α},
    (∀ x ∈ xs, Uniform env fixed fun here => f here x) → Uniform env fixed fun here => xs.mapM (f here)
  | [], _ => of_eq_ok (a := fun _ => []) (fun _ => List.mapM_nil) ⟨[], fun _ => rfl, fun _ h => absurd h List.not_mem_nil⟩
  | x :: xs, h => by
    have hx := h x List.mem_cons_self
    have hxs := mapM fun y hy => h y (List.mem_cons_of_mem x hy)
    simp only [List.mapM_cons]
    refine hx.bind fun a ha => hxs.bind fun as has => ?_
    obtain ⟨bs, has, hbs⟩ := has
    exact of_eq_ok (fun _ => rfl) ⟨a :: bs, fun here => congrArg (a here :: ·) (has here), List.forall_mem_cons.2 ⟨ha, hbs⟩⟩

instance of_mapM {α : Type} {xs : List α} {f : Namespace → α → Except GenError β} [h : ∀ x, Uniform env fixed fun here => f here x] :
    Uniform env fixed fun here => xs.mapM (f here) := mapM fun x _ => h x

end Uniform

end

end Go

end FlatSchema
